import Cppnet.Io.EpollLoop
import Mathlib.Data.List.Nodup

/-!
# Operations that are completed once

A coroutine is given to the pool when its descriptor is ready, and when its timeout is over. The second is
skipped if the coroutine is done, but it may have been given to the pool and not have been resumed yet.

* `handed_nodup_iff`: a coroutine is given to the pool at most once as long as none of those in the pool is
  found ready, or with its timeout over; and not any longer.
-/

namespace Cppnet.Io.Scheduler

open Lib

/-- The coroutines of the events that `dispatch` has not looked at yet. -/
def announced (s : Scheduler) : List ℕ := s.events.filterMap Event.handle?

/-- At a step, no coroutine in the pool is found ready, or with its timeout over. -/
def Resumed (s : Scheduler) : Action → Prop
  | .wait ready => ∀ fd flags, .descriptor fd flags ∈ ready → ∀ h ∈ s.armed fd, h ∉ s.pool
  | .dispatch => s.events = [] → ∀ now ∈ s.now, ∀ op ∈ s.timeoutList.top, op.timeoutAt ≤ now →
      s.done op.handle = false → op.handle ∉ s.pool
  | _ => True

/-- No coroutine was given to the pool twice, nor is about to be. -/
structure Inv (s : Scheduler) : Prop where
  once : (s.handed ++ s.announced).Nodup
  /-- The coroutine of a descriptor that is waited for. If it was given to the pool, this was at a timeout. -/
  armed : ∀ fd h, s.armed fd = some h → s.fd h = fd ∧ h < s.next ∧ h ∉ s.announced ∧
    (h ∈ s.handed → h ∈ s.pool ∧ (s.result h).err = some .timedOut)
  handed : ∀ h, h ∈ s.handed ↔ h ∈ s.pool ∨ s.done h = true
  fresh : ∀ h ∈ s.handed ++ s.announced, h < s.next
  timeouts : ∀ op ∈ s.timeoutList.entries, op.handle < s.next

theorem inv_new : Inv {} where
  once := List.nodup_nil
  armed := by simp
  handed := by simp
  fresh := by simp [announced]
  timeouts := by simp [PriorityQueue.empty]

/-! ## What the steps do -/

section Cases

variable {s s' : Scheduler}

theorem updateTimer_cases {ms : ℤ} (h : s.updateTimer ms = some s') : ∃ timer, s' = { s with timer } := by
  rw [updateTimer] at h
  by_cases hms : ms < 0
  · rw [if_pos hms] at h
    cases h
  · rw [if_neg hms] at h
    cases h
    exact ⟨_, rfl⟩

theorem queue_cases {fd timeout : ℕ} (h : s.queue fd timeout = some s') :
    ∃ timer, ∃ timeoutList : PriorityQueue TimeoutOperation.timeoutAt,
      (∀ op ∈ timeoutList.entries, op.handle = s.next ∨ op ∈ s.timeoutList.entries) ∧
      s' = { s with
        armed := fun fd' => if fd' = fd then some s.next else s.armed fd'
        fd := fun h => if h = s.next then fd else s.fd h
        next := s.next + 1
        timer
        timeoutList } := by
  rw [queue] at h
  dsimp only at h
  split_ifs at h with htimeout hlock htop
  · obtain ⟨s₁, hs₁, rfl⟩ := Option.map_eq_some_iff.1 h
    obtain ⟨timer, rfl⟩ := updateTimer_cases hs₁
    refine ⟨timer, _, fun op hop => ?_, rfl⟩
    exact (PriorityQueue.mem_push.1 hop).imp_left fun heq => by rw [heq]
  · cases h
    refine ⟨s.timer, _, fun op hop => ?_, rfl⟩
    exact (PriorityQueue.mem_push.1 hop).imp_left fun heq => by rw [heq]
  · cases h
    exact ⟨s.timer, s.timeoutList, fun op hop => .inr hop, rfl⟩

theorem dispatch_cases (h : s.dispatch = some s') :
    (∃ events, s.events = .timer :: events ∧ s' = { s with events, dispatchTimeouts := true }) ∨
    (∃ handle flags events, s.events = .op handle flags :: events ∧
      s' = hand { s with events } handle flags.result) ∨
    (s.events = [] ∧ (∀ now op, s.now = some now → s.timeoutList.top = some op → now < op.timeoutAt) ∧
      ∃ timer dispatchTimeouts now, s' = { s with timer, dispatchTimeouts, now }) ∨
    (s.events = [] ∧ ∃ now op, s.now = some now ∧ s.timeoutList.top = some op ∧ op.timeoutAt ≤ now ∧
      s.done op.handle = true ∧ s' = { s with timeoutList := s.timeoutList.pop }) ∨
    (s.events = [] ∧ ∃ now op, s.now = some now ∧ s.timeoutList.top = some op ∧ op.timeoutAt ≤ now ∧
      s.done op.handle = false ∧ s' = hand { s with timeoutList := s.timeoutList.pop } op.handle timedOut) := by
  rw [dispatch] at h
  split at h
  · next events hevents =>
    split_ifs at h
    cases h
    exact .inl ⟨events, hevents, rfl⟩
  · next handle flags events hevents =>
    cases h
    exact .inr (.inl ⟨handle, flags, events, hevents, rfl⟩)
  · next hevents =>
    refine .inr (.inr ?_)
    split_ifs at h with hflag
    split at h
    · next hnow =>
      cases h
      exact .inl ⟨hevents, by simp [hnow], _, _, _, rfl⟩
    · next now hnow =>
      split at h
      · next htop =>
        cases h
        exact .inl ⟨hevents, by simp [htop], _, _, _, rfl⟩
      · next op htop =>
        dsimp only at h
        split_ifs at h with hover hdone
        · cases h
          exact .inr (.inl ⟨hevents, now, op, hnow, htop, hover, hdone, rfl⟩)
        · cases h
          rw [Bool.not_eq_true] at hdone
          exact .inr (.inr ⟨hevents, now, op, hnow, htop, hover, hdone, rfl⟩)
        · cases h
          refine .inl ⟨hevents, by simpa [hnow, htop] using hover, ?_⟩
          cases hs₁ : s.updateTimer (((op.timeoutAt : ℤ) - s.clock).tdiv 1000000) with
          | none => exact ⟨s.timer, _, _, rfl⟩
          | some s₁ =>
            obtain ⟨timer, rfl⟩ := updateTimer_cases hs₁
            exact ⟨timer, _, _, rfl⟩

theorem wait_cases {ready : List Ready} (h : s.wait ready = some s') :
    s.events = [] ∧ (ready.map Ready.source).Nodup ∧
      s' = { s with
        events := ready.filterMap s.event
        armed := fun fd => if some fd ∈ ready.map Ready.source then none else s.armed fd } := by
  rw [wait] at h
  split_ifs at h with hwait
  cases h
  exact ⟨hwait.1.1, hwait.2.2.2.1, rfl⟩

theorem resume_cases {handle available : ℕ} {res : Result} (h : s.resume handle available = some (res, s')) :
    handle ∈ s.pool ∧ ∃ armed, s' = { s with
        armed
        pool := s.pool.erase handle
        done := fun h => if h = handle then true else s.done h } ∧
      (∀ fd h, armed fd = some h → s.armed fd = some h) ∧
      ((s.result handle).err = some .timedOut → armed (s.fd handle) = none) := by
  rw [resume] at h
  split_ifs at h with hresume
  cases h
  refine ⟨hresume.1, ?_⟩
  by_cases hres : (s.result handle).err = some .timedOut
  · rw [if_pos hres]
    refine ⟨_, rfl, fun fd h harmed => ?_, fun _ => if_pos rfl⟩
    by_cases hfd : fd = s.fd handle
    · cases (if_pos hfd).symm.trans harmed
    · exact (if_neg hfd).symm.trans harmed
  · rw [if_neg hres]
    exact ⟨s.armed, rfl, fun fd h harmed => harmed, fun hres' => absurd hres' hres⟩

theorem step_cases {a : Action} {o : Option Result} (h : s.step a = some (o, s')) :
    (∃ ns, a = .tick ns ∧ s' = { s with clock := s.clock + ns }) ∨
    (∃ fd timeout, a = .queue fd timeout ∧ s.queue fd timeout = some s') ∨
    (∃ ready, a = .wait ready ∧ s.wait ready = some s') ∨
    (a = .dispatch ∧ s.dispatch = some s') ∨
    ∃ handle available res, a = .resume handle available ∧ s.resume handle available = some (res, s') := by
  cases a with
  | tick ns =>
    cases h
    exact .inl ⟨ns, rfl, rfl⟩
  | queue fd timeout =>
    obtain ⟨s₁, hs₁, heq⟩ := Option.map_eq_some_iff.1 h
    cases heq
    exact .inr (.inl ⟨fd, timeout, rfl, hs₁⟩)
  | wait ready =>
    obtain ⟨s₁, hs₁, heq⟩ := Option.map_eq_some_iff.1 h
    cases heq
    exact .inr (.inr (.inl ⟨ready, rfl, hs₁⟩))
  | dispatch =>
    obtain ⟨s₁, hs₁, heq⟩ := Option.map_eq_some_iff.1 h
    cases heq
    exact .inr (.inr (.inr (.inl ⟨rfl, hs₁⟩)))
  | resume handle available =>
    obtain ⟨⟨res, s₁⟩, hs₁, heq⟩ := Option.map_eq_some_iff.1 h
    cases heq
    exact .inr (.inr (.inr (.inr ⟨handle, available, res, rfl, hs₁⟩)))

end Cases

/-! ## The invariant -/

section Steps

variable {s s' : Scheduler} (h : s.Inv)

include h

theorem Inv.queue {fd timeout : ℕ} (hqueue : s.queue fd timeout = some s') : s'.Inv := by
  obtain ⟨timer, timeoutList, htimeouts, rfl⟩ := queue_cases hqueue
  have hnew : s.next ∉ s.handed ++ s.announced := fun hmem => lt_irrefl _ (h.fresh _ hmem)
  rw [List.mem_append, not_or] at hnew
  exact
    { once := h.once
      armed := by
        intro fd' h' harmed
        dsimp only at harmed ⊢
        split_ifs at harmed with hfd
        · -- The new coroutine.
          cases harmed
          exact ⟨by rw [if_pos rfl, hfd], Nat.lt_succ_self _, hnew.2, fun hmem => absurd hmem hnew.1⟩
        · obtain ⟨hfd', hlt, hannounced, hhanded⟩ := h.armed fd' h' harmed
          exact ⟨by rw [if_neg (by omega), hfd'], by omega, hannounced, hhanded⟩
      handed := h.handed
      fresh := fun h' hmem => Nat.lt_succ_of_lt (h.fresh h' hmem)
      timeouts := by
        intro op hop
        rcases htimeouts op hop with heq | hop
        · exact heq ▸ Nat.lt_succ_self _
        · exact Nat.lt_succ_of_lt (h.timeouts op hop) }

/-- A coroutine that was not given to the pool before is given to it. -/
theorem Inv.hand {handle : ℕ} {res : Result} {events : List Event}
    {timeoutList : PriorityQueue TimeoutOperation.timeoutAt}
    (honce : (s.handed ++ [handle] ++ events.filterMap Event.handle?).Nodup) (hlt : handle < s.next)
    (hevents : events.filterMap Event.handle? ⊆ s.announced)
    (harmed : ∀ fd, s.armed fd = some handle → res.err = some .timedOut)
    (htimeouts : ∀ op ∈ timeoutList.entries, op ∈ s.timeoutList.entries) :
    (hand { s with events, timeoutList } handle res).Inv where
  once := honce
  armed := by
    intro fd h' hfd
    obtain ⟨hfd', hlt', hannounced, hhanded⟩ := h.armed fd h' hfd
    refine ⟨hfd', hlt', fun hmem => hannounced (hevents hmem), fun hmem => ?_⟩
    change h' ∈ s.pool ++ [handle] ∧ (if h' = handle then res else s.result h').err = _
    -- It is still waited for, so what it was given to the pool for is its timeout.
    by_cases heq : h' = handle
    · subst heq
      exact ⟨by simp, by rw [if_pos rfl]; exact harmed fd hfd⟩
    · have hmem' : h' ∈ s.handed := by
        rcases List.mem_append.1 (show h' ∈ s.handed ++ [handle] from hmem) with hmem | hmem
        · exact hmem
        · exact absurd (List.mem_singleton.1 hmem) heq
      exact ⟨List.mem_append_left _ (hhanded hmem').1, by rw [if_neg heq]; exact (hhanded hmem').2⟩
  handed := by
    intro h'
    change h' ∈ s.handed ++ [handle] ↔ h' ∈ s.pool ++ [handle] ∨ s.done h' = true
    rw [List.mem_append, List.mem_append, h.handed]
    tauto
  fresh := by
    intro h' hmem
    have hmem' : h' ∈ s.handed ++ [handle] ++ events.filterMap Event.handle? := hmem
    rw [List.append_assoc, List.mem_append, List.mem_append, List.mem_singleton] at hmem'
    rcases hmem' with hmem | rfl | hmem
    · exact h.fresh h' (List.mem_append_left _ hmem)
    · exact hlt
    · exact h.fresh h' (List.mem_append_right _ (hevents hmem))
  timeouts := fun op hop => h.timeouts op (htimeouts op hop)

theorem Inv.dispatch (hresumed : s.Resumed .dispatch) (hdispatch : s.dispatch = some s') : s'.Inv := by
  rcases dispatch_cases hdispatch with ⟨events, hevents, rfl⟩ | ⟨handle, flags, events, hevents, rfl⟩ |
    ⟨hevents, -, timer, flag, now, rfl⟩ | ⟨hevents, now, op, hnow, htop, hover, hdone, rfl⟩ |
    ⟨hevents, now, op, hnow, htop, hover, hdone, rfl⟩
  · have hannounced : announced { s with events, dispatchTimeouts := true } = s.announced := by
      rw [announced, announced, hevents]
      rfl
    exact
      { once := by rw [hannounced]; exact h.once
        armed := by rw [hannounced]; exact h.armed
        handed := h.handed
        fresh := by rw [hannounced]; exact h.fresh
        timeouts := h.timeouts }
  · -- The event of a coroutine, which was announced.
    have hannounced : s.announced = handle :: events.filterMap Event.handle? := by
      rw [announced, hevents]
      rfl
    have hmem : handle ∈ s.announced := hannounced ▸ List.mem_cons_self
    refine h.hand ?_ (h.fresh handle (List.mem_append_right _ hmem)) ?_ ?_ fun op hop => hop
    · rw [List.append_assoc, List.singleton_append, ← hannounced]
      exact h.once
    · rw [hannounced]
      exact List.subset_cons_self _ _
    · exact fun fd harmed => absurd hmem (h.armed fd handle harmed).2.2.1
  · exact ⟨h.once, h.armed, h.handed, h.fresh, h.timeouts⟩
  · exact ⟨h.once, h.armed, h.handed, h.fresh,
      fun op hop => h.timeouts op (PriorityQueue.mem_of_mem_pop hop)⟩
  · -- The timeout of a coroutine, which is neither in the pool nor done.
    have hannounced : s.announced = [] := by
      rw [announced, hevents]
      rfl
    have hnot : op.handle ∉ s.handed := by
      rw [h.handed, hdone]
      simpa using hresumed hevents now hnow op htop hover hdone
    refine h.hand ?_ (h.timeouts op (PriorityQueue.mem_of_top htop)) ?_ (fun _ _ => rfl)
      fun op hop => PriorityQueue.mem_of_mem_pop hop
    · have honce := h.once
      rw [hannounced, List.append_nil] at honce
      rw [hevents, List.filterMap_nil, List.append_nil]
      exact honce.append (List.nodup_singleton _) (by simpa using hnot)
    · exact fun _ hmem => hmem

omit h in
/-- The coroutines of the events that `epoll_wait` returns. -/
theorem announced_event (ready : List Ready) :
    (ready.filterMap s.event).filterMap Event.handle? =
      (ready.map Ready.source).filterMap fun source => source.bind s.armed := by
  rw [List.filterMap_filterMap, List.filterMap_map]
  refine List.filterMap_congr fun r _ => ?_
  cases r with
  | timer => rfl
  | descriptor fd flags =>
    rw [Function.comp_apply, Ready.source, Option.bind_some, event, Option.bind_map]
    cases s.armed fd <;> rfl

omit h in
theorem mem_announced_event {ready : List Ready} {handle : ℕ} :
    handle ∈ (ready.filterMap s.event).filterMap Event.handle? ↔
      ∃ fd, some fd ∈ ready.map Ready.source ∧ s.armed fd = some handle := by
  rw [announced_event, List.mem_filterMap]
  constructor
  · rintro ⟨source, hsource, hbind⟩
    obtain ⟨fd, rfl, harmed⟩ := Option.bind_eq_some_iff.1 hbind
    exact ⟨fd, hsource, harmed⟩
  · rintro ⟨fd, hsource, harmed⟩
    exact ⟨some fd, hsource, harmed⟩

omit h in
theorem exists_descriptor {ready : List Ready} {fd : ℕ} (hfd : some fd ∈ ready.map Ready.source) :
    ∃ flags, .descriptor fd flags ∈ ready := by
  obtain ⟨r, hr, hsource⟩ := List.mem_map.1 hfd
  cases r with
  | timer => cases hsource
  | descriptor fd' flags =>
    cases hsource
    exact ⟨flags, hr⟩

theorem Inv.wait {ready : List Ready} (hresumed : s.Resumed (.wait ready)) (hwait : s.wait ready = some s') :
    s'.Inv := by
  obtain ⟨hevents, hnodup, rfl⟩ := wait_cases hwait
  have hhanded : s.handed.Nodup := h.once.of_append_left
  -- A coroutine of a descriptor that is waited for, and not in the pool, was never given to it.
  have hnew : ∀ handle ∈ (ready.filterMap s.event).filterMap Event.handle?, handle ∉ s.handed := by
    intro handle hmem hmem'
    obtain ⟨fd, hfd, harmed⟩ := mem_announced_event.1 hmem
    obtain ⟨flags, hready⟩ := exists_descriptor hfd
    exact hresumed fd flags hready handle harmed ((h.armed fd handle harmed).2.2.2 hmem').1
  exact
    { once := by
        refine hhanded.append ?_ fun handle hmem hmem' => hnew handle hmem' hmem
        change ((ready.filterMap s.event).filterMap Event.handle?).Nodup
        rw [announced_event]
        refine hnodup.filterMap fun a a' handle ha ha' => ?_
        obtain ⟨fd, rfl, harmed⟩ := Option.bind_eq_some_iff.1 ha
        obtain ⟨fd', rfl, harmed'⟩ := Option.bind_eq_some_iff.1 ha'
        rw [← (h.armed fd handle harmed).1, ← (h.armed fd' handle harmed').1]
      armed := by
        intro fd handle harmed
        dsimp only at harmed
        split_ifs at harmed with hfd
        obtain ⟨hfd', hlt, -, hhanded'⟩ := h.armed fd handle harmed
        refine ⟨hfd', hlt, fun hmem => ?_, hhanded'⟩
        obtain ⟨fd₁, hfd₁, harmed₁⟩ := mem_announced_event.1 hmem
        obtain rfl : fd₁ = fd := (h.armed fd₁ handle harmed₁).1.symm.trans hfd'
        exact hfd hfd₁
      handed := h.handed
      fresh := by
        intro handle hmem
        rcases List.mem_append.1 hmem with hmem | hmem
        · exact h.fresh handle (List.mem_append_left _ hmem)
        · obtain ⟨fd, -, harmed⟩ := mem_announced_event.1 hmem
          exact (h.armed fd handle harmed).2.1
      timeouts := h.timeouts }

theorem Inv.resume {handle available : ℕ} {res : Result} (hresume : s.resume handle available = some (res, s')) :
    s'.Inv := by
  obtain ⟨hpool, armed, rfl, harmed, hdisabled⟩ := resume_cases hresume
  exact
    { once := h.once
      armed := by
        intro fd h' hfd
        dsimp only at hfd
        obtain ⟨hfd', hlt, hannounced, hhanded'⟩ := h.armed fd h' (harmed fd h' hfd)
        refine ⟨hfd', hlt, hannounced, fun hmem => ?_⟩
        have hne : h' ≠ handle := by
          -- At a timeout, its descriptor is not waited for any more.
          rintro rfl
          rw [← hfd', hdisabled (hhanded' hmem).2] at hfd
          cases hfd
        exact ⟨(List.mem_erase_of_ne hne).2 (hhanded' hmem).1, (hhanded' hmem).2⟩
      handed := by
        intro h'
        rw [h.handed]
        dsimp only
        by_cases heq : h' = handle
        · subst heq
          simp [hpool]
        · rw [List.mem_erase_of_ne heq, if_neg heq]
      fresh := h.fresh
      timeouts := h.timeouts }

theorem Inv.step {a : Action} {o : Option Result} (hresumed : s.Resumed a) (hstep : s.step a = some (o, s')) :
    s'.Inv := by
  rcases step_cases hstep with ⟨ns, rfl, rfl⟩ | ⟨fd, timeout, rfl, hqueue⟩ | ⟨ready, rfl, hwait⟩ |
    ⟨rfl, hdispatch⟩ | ⟨handle, available, res, rfl, hresume⟩
  · exact ⟨h.once, h.armed, h.handed, h.fresh, h.timeouts⟩
  · exact h.queue hqueue
  · exact h.wait hresumed hwait
  · exact h.dispatch hresumed hdispatch
  · exact h.resume hresume

/-- A coroutine in the pool that is found ready, or with its timeout over, is given to the pool again. -/
theorem Inv.not_nodup_of_not_resumed {a : Action} {o : Option Result} (hresumed : ¬s.Resumed a)
    (hstep : s.step a = some (o, s')) : ¬(s'.handed ++ s'.announced).Nodup := by
  rcases step_cases hstep with ⟨ns, rfl, -⟩ | ⟨fd, timeout, rfl, -⟩ | ⟨ready, rfl, hwait⟩ |
    ⟨rfl, hdispatch⟩ | ⟨handle, available, res, rfl, -⟩
  · exact absurd trivial hresumed
  · exact absurd trivial hresumed
  · simp only [Resumed, not_forall, Decidable.not_not] at hresumed
    obtain ⟨fd, flags, hready, handle, harmed, hpool⟩ := hresumed
    obtain ⟨-, -, rfl⟩ := wait_cases hwait
    have hmem : handle ∈ (ready.filterMap s.event).filterMap Event.handle? :=
      mem_announced_event.2 ⟨fd, List.mem_map_of_mem (f := Ready.source) hready, harmed⟩
    exact fun hnodup => List.disjoint_of_nodup_append hnodup ((h.handed handle).2 (.inl hpool)) hmem
  · simp only [Resumed, not_forall, Decidable.not_not] at hresumed
    obtain ⟨hevents, now, hnow, op, htop, hover, hdone, hpool⟩ := hresumed
    rcases dispatch_cases hdispatch with ⟨events, hevents', -⟩ | ⟨handle, flags, events, hevents', -⟩ |
      ⟨-, hnot, -⟩ | ⟨-, now', op', -, htop', -, hdone', -⟩ | ⟨-, now', op', -, htop', -, -, rfl⟩
    · cases hevents.symm.trans hevents'
    · cases hevents.symm.trans hevents'
    · exact absurd hover (Nat.not_le.2 (hnot now op hnow htop))
    · cases htop.symm.trans htop'
      cases hdone.symm.trans hdone'
    · -- Only `done` is looked at, which it is not before it is resumed.
      cases htop.symm.trans htop'
      intro hnodup
      have hmem : op.handle ∈ s.handed := (h.handed _).2 (.inl hpool)
      exact List.disjoint_of_nodup_append hnodup.of_append_left hmem (List.mem_singleton_self _)
  · exact absurd trivial hresumed

omit h in
/-- What was given to the pool, or was about to be, stays so. -/
theorem sublist_step {a : Action} {o : Option Result} (hstep : s.step a = some (o, s')) :
    (s.handed ++ s.announced).Sublist (s'.handed ++ s'.announced) := by
  rcases step_cases hstep with ⟨ns, -, rfl⟩ | ⟨fd, timeout, -, hqueue⟩ | ⟨ready, -, hwait⟩ |
    ⟨-, hdispatch⟩ | ⟨handle, available, res, -, hresume⟩
  · exact List.Sublist.refl _
  · obtain ⟨timer, timeoutList, -, rfl⟩ := queue_cases hqueue
    exact List.Sublist.refl _
  · obtain ⟨hevents, -, rfl⟩ := wait_cases hwait
    rw [announced, hevents, List.filterMap_nil, List.append_nil]
    exact List.sublist_append_left _ _
  · rcases dispatch_cases hdispatch with ⟨events, hevents, rfl⟩ | ⟨handle, flags, events, hevents, rfl⟩ |
      ⟨hevents, -, timer, flag, now, rfl⟩ | ⟨hevents, now, op, -, -, -, -, rfl⟩ |
      ⟨hevents, now, op, -, -, -, -, rfl⟩
    · rw [announced, hevents]
      exact List.Sublist.refl _
    · -- It was about to be, and now it is.
      rw [announced, hevents]
      change (s.handed ++ handle :: events.filterMap Event.handle?).Sublist
        (s.handed ++ [handle] ++ events.filterMap Event.handle?)
      rw [List.append_cons]
    · exact List.Sublist.refl _
    · exact List.Sublist.refl _
    · exact (List.sublist_append_left _ _).append_right _
  · obtain ⟨-, armed, rfl, -, -⟩ := resume_cases hresume
    exact List.Sublist.refl _

end Steps

/-- In every run in which no coroutine in the pool is found ready, or with its timeout over, each one is given
    to the pool at most once; and where they are, and no call of `dispatch` is under way, none was found so. -/
theorem handed_nodup_iff {as : List Action} {os : List (Option Result)} {s : Scheduler}
    (h : exec step {} as = some (os, s)) :
    (Along step Resumed {} as → s.handed.Nodup) ∧
      (s.events = [] → s.handed.Nodup → Along step Resumed {} as) := by
  have hiff : (s.handed ++ s.announced).Nodup ↔ Along step Resumed {} as :=
    exec_iff_along Inv (P := fun s => (s.handed ++ s.announced).Nodup) (fun _ hs => hs.once)
      (fun _ _ _ _ hs hresumed hstep => hs.step hresumed hstep)
      (fun _ _ _ _ hs hresumed hstep => hs.not_nodup_of_not_resumed hresumed hstep)
      (fun _ _ _ _ hstep hnodup => hnodup.sublist (sublist_step hstep)) inv_new h
  refine ⟨fun halong => (hiff.2 halong).of_append_left, fun hevents hnodup => hiff.1 ?_⟩
  rwa [announced, hevents, List.filterMap_nil, List.append_nil]

theorem handed_nodup_iff_one : ∃ os s,
    exec step {} [.queue 7 1, .wait [.descriptor 7 {}], .dispatch, .resume 0 5] = some (os, s) ∧
      s.handed.Nodup := by
  obtain ⟨os, s, hrun⟩ : ∃ os s,
    exec step {} [.queue 7 1, .wait [.descriptor 7 {}], .dispatch, .resume 0 5] = some (os, s) := ⟨_, _, rfl⟩
  refine ⟨os, s, hrun, (handed_nodup_iff hrun).1 ⟨trivial, fun _ _ h => ?_⟩⟩
  cases h
  refine ⟨fun _ _ _ _ _ => List.not_mem_nil, fun _ _ h => ?_⟩
  cases h
  refine ⟨fun hevents => ?_, fun _ _ _ => ⟨trivial, fun _ _ _ => trivial⟩⟩
  cases hevents

/-- A descriptor is ready when its timeout is over: its coroutine is given to the pool for both. So it is if the
    descriptor is ready after that, before its coroutine is resumed. -/
theorem handed_twice :
    (∃ os s, exec step {} [.queue 7 1, .tick 2000000, .wait [.descriptor 7 {}, .timer], .dispatch, .dispatch,
      .dispatch, .dispatch] = some (os, s) ∧ s.handed = [0, 0]) ∧
    ∃ os s, exec step {} [.queue 7 1, .tick 2000000, .wait [.timer], .dispatch, .dispatch, .dispatch, .dispatch,
      .wait [.descriptor 7 {}], .dispatch] = some (os, s) ∧ s.handed = [0, 0] :=
  ⟨⟨_, _, rfl, rfl⟩, ⟨_, _, rfl, rfl⟩⟩

end Cppnet.Io.Scheduler
