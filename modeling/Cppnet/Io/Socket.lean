import Cppnet.Io.EpollLoop
import Mathlib.Data.Set.Finite.Lattice

/-!
# Writing to a socket

`socket.cpp`: `write` waits until the socket is ready, and then offers `send` as many bytes as it was told, until all
of its data is sent. What it was told, for a descriptor to be written to, is how many bytes wait in the output queue
(`TIOCOUTQ`), and not how many there is room for: with an empty queue, it offers nothing, and takes the zero that
`send` returns for a closed connection.

* `write_sends_iff`: on a healthy connection, the data is sent as long as the output queue is never found empty.
-/

namespace Cppnet.Io.Socket

open Lib

/-- `EAGAIN`, which is `EWOULDBLOCK` as well. -/
def eagain : ℕ := 11

/-- What a turn of the loop meets: what `schedule` reports, and what `send` does with a span of some length: the
    number of bytes that it accepts, or `errno`. -/
structure Event where
  scheduled : Result
  send : ℕ → Except ℕ ℕ

/-- The loop of `write`: its turns so far, `total_written`, and the bytes that `send` has accepted. -/
structure Sending where
  turns : ℕ := 0
  totalWritten : ℕ := 0
  sent : Bytes := []
  deriving DecidableEq

/-- `write_amount`: how much of the data is offered. -/
def writeAmount (events : ℕ → Event) (data : Bytes) (s : Sending) : ℕ :=
  min (events s.turns).scheduled.count (data.length - s.totalWritten)

/-- One turn of `write`. -/
def writeTurn (events : ℕ → Event) (data : Bytes) (s : Sending) : Option (Turn Sending (Result × Sending)) :=
  if s.totalWritten < data.length then
    let res := (events s.turns).scheduled
    if res.err.isSome ∧ res.count = 0 then some (.done (res, s))
    else
      match (events s.turns).send (writeAmount events data s) with
      | .error errno =>
        if errno = eagain then some (.next { s with turns := s.turns + 1 })
        else some (.done (⟨s.totalWritten, some (.system errno)⟩, s))
      | .ok num =>
        if num = 0 then some (.done (⟨s.totalWritten, some .closed⟩, s))
        else some (.next ⟨s.turns + 1, s.totalWritten + num, s.sent ++ (data.drop s.totalWritten).take num⟩)
  else some (.done (⟨s.totalWritten, none⟩, s))

/-- A turn, of a run of `write`, at which `send` wants to be called again. -/
def Again (events : ℕ → Event) (data : Bytes) (k : ℕ) : Prop :=
  ∃ s, Loop.Reaches (writeTurn events data) {} s ∧ s.turns = k ∧
    (events k).send (writeAmount events data s) = .error eagain

/-- A connection with which nothing is wrong: `schedule` reports no error, and `send` accepts some of what it is
    offered, or wants to be called again, which it does finitely often. -/
structure Healthy (events : ℕ → Event) (data : Bytes) : Prop where
  scheduled : ∀ k, (events k).scheduled.err = none
  send_zero : ∀ k, (events k).send 0 = .ok 0
  send_pos : ∀ k m, 0 < m → (∃ n, 0 < n ∧ n ≤ m ∧ (events k).send m = .ok n) ∨ (events k).send m = .error eagain
  again : {k | Again events data k}.Finite

variable {events : ℕ → Event} {data : Bytes} {s : Sending}

/-- A turn with nothing to offer takes the connection for closed. -/
theorem writeTurn_zero (h : Healthy events data) (hs : s.totalWritten < data.length)
    (hcount : (events s.turns).scheduled.count = 0) :
    writeTurn events data s = some (.done (⟨s.totalWritten, some .closed⟩, s)) := by
  rw [writeTurn, if_pos hs]
  dsimp only
  rw [h.scheduled, writeAmount, hcount, Nat.zero_min, h.send_zero]
  rfl

/-- A turn with something to offer sends some of it, or is made again. -/
theorem writeTurn_pos (h : Healthy events data) (hs : s.totalWritten < data.length)
    (hcount : (events s.turns).scheduled.count ≠ 0) :
    (∃ n, 0 < n ∧ s.totalWritten + n ≤ data.length ∧ writeTurn events data s =
      some (.next ⟨s.turns + 1, s.totalWritten + n, s.sent ++ (data.drop s.totalWritten).take n⟩)) ∨
    ((events s.turns).send (writeAmount events data s) = .error eagain ∧
      writeTurn events data s = some (.next { s with turns := s.turns + 1 })) := by
  have hpos : 0 < writeAmount events data s :=
    lt_min (Nat.pos_of_ne_zero hcount) (Nat.sub_pos_of_lt hs)
  rw [writeTurn, if_pos hs]
  dsimp only
  rw [h.scheduled, if_neg (by simp)]
  rcases h.send_pos s.turns _ hpos with ⟨n, hn, hle, hsend⟩ | hsend
  · refine .inl ⟨n, hn, ?_, ?_⟩
    · have := hle.trans (min_le_right _ _)
      omega
    · rw [hsend]
      dsimp only
      rw [if_neg (Nat.ne_of_gt hn)]
  · refine .inr ⟨hsend, ?_⟩
    rw [hsend]
    rfl

/-- A state of a run: the bytes that were sent are those at the front of the data. -/
structure Sent (events : ℕ → Event) (data : Bytes) (s : Sending) : Prop where
  reached : Loop.Reaches (writeTurn events data) {} s
  le : s.totalWritten ≤ data.length
  sent : s.sent = data.take s.totalWritten

/-- One turn, with something to offer if there is some left: more is sent, or the turn is made again; or else, all of
    the data is sent. -/
theorem Sent.turn (h : Healthy events data) (hs : Sent events data s)
    (hcount : s.totalWritten < data.length → (events s.turns).scheduled.count ≠ 0) :
    (∃ s', writeTurn events data s = some (.next s') ∧ Sent events data s' ∧ s'.turns = s.turns + 1 ∧
      s.totalWritten ≤ s'.totalWritten ∧ (s.totalWritten < s'.totalWritten ∨ Again events data s.turns)) ∨
    writeTurn events data s = some (.done (⟨data.length, none⟩, s)) ∧ s.sent = data := by
  by_cases hlt : s.totalWritten < data.length
  · left
    rcases writeTurn_pos h hlt (hcount hlt) with ⟨n, hn, hle, hturn⟩ | ⟨hagain, hturn⟩
    · refine ⟨_, hturn, ⟨hs.reached.trans (.next hturn (.refl _)), hle, ?_⟩, rfl, Nat.le_add_right _ _,
        .inl (Nat.lt_add_of_pos_right hn)⟩
      rw [hs.sent, List.take_add]
    · exact ⟨_, hturn, ⟨hs.reached.trans (.next hturn (.refl _)), hs.le, hs.sent⟩, rfl, le_rfl,
        .inr ⟨s, hs.reached, rfl, hagain⟩⟩
  · right
    have hall : s.totalWritten = data.length := Nat.le_antisymm hs.le (Nat.not_lt.1 hlt)
    refine ⟨?_, by rw [hs.sent, hall, List.take_length]⟩
    rw [writeTurn, if_neg hlt, hall]

/-- If there always is something to offer, all of the data is sent. -/
theorem returns_sent (h : Healthy events data)
    (hcount : ∀ s, Loop.Reaches (writeTurn events data) {} s → s.totalWritten < data.length →
      (events s.turns).scheduled.count ≠ 0) :
    ∃ s, Loop.Returns (writeTurn events data) {} (⟨data.length, none⟩, s) ∧ s.sent = data := by
  -- From some turn on, `send` does not want to be called again, and then each turn sends something.
  obtain ⟨last, hlast⟩ := h.again.bddAbove
  have hbody : ∀ s, Sent events data s →
      (∃ s', writeTurn events data s = some (.next s') ∧ Sent events data s' ∧
        (data.length - s'.totalWritten) + (last + 1 - s'.turns) <
          (data.length - s.totalWritten) + (last + 1 - s.turns)) ∨
      ∃ r, writeTurn events data s = some (.done r) ∧ r.1 = ⟨data.length, none⟩ ∧ r.2.sent = data := by
    intro s hs
    rcases hs.turn h (hcount s hs.reached) with ⟨s', hturn, hs', hturns, hle, hmore⟩ | ⟨hturn, hsent⟩
    · refine .inl ⟨s', hturn, hs', ?_⟩
      have hle' := hs'.le
      rcases hmore with hlt | hagain
      · omega
      · have hbound : s.turns ≤ last := hlast hagain
        omega
    · exact .inr ⟨_, hturn, rfl, hsent⟩
  obtain ⟨⟨res, s⟩, hrun, rfl, hsent⟩ := Loop.run_total (Sent events data) _ _ hbody
    ⟨.refl _, Nat.zero_le _, rfl⟩ (Nat.lt_succ_self _)
  exact ⟨s, Loop.returns_of_run hrun, hsent⟩

/-- On a healthy connection, `write` returns. It has sent the data, in order, if and only if `schedule` did not report
    0 at a turn at which there was some left to be sent. -/
theorem write_sends_iff (h : Healthy events data) :
    ∃ res s, Loop.Returns (writeTurn events data) {} (res, s) ∧
      ((res = ⟨data.length, none⟩ ∧ s.sent = data) ↔
        ∀ s', Loop.Reaches (writeTurn events data) {} s' → s'.totalWritten < data.length →
          (events s'.turns).scheduled.count ≠ 0) := by
  by_cases hcount : ∀ s', Loop.Reaches (writeTurn events data) {} s' → s'.totalWritten < data.length →
      (events s'.turns).scheduled.count ≠ 0
  · obtain ⟨s, hreturns, hsent⟩ := returns_sent h hcount
    exact ⟨_, s, hreturns, iff_of_true ⟨rfl, hsent⟩ hcount⟩
  · have hnot := hcount
    push Not at hcount
    obtain ⟨s, hs, hlt, hzero⟩ := hcount
    refine ⟨_, s, hs.returns (.done (writeTurn_zero h hlt hzero)), iff_of_false (fun hres => ?_) hnot⟩
    exact Option.some_ne_none _ (congrArg Report.err hres.1)

/-- Three bytes, of which `send` takes two at most, with a pause before the first. -/
theorem write_sends_iff_three : ∃ res s, Loop.Returns (writeTurn (fun k => ⟨⟨5, none⟩, fun m =>
      if k = 0 ∧ 0 < m then .error eagain else .ok (min m 2)⟩) [1, 2, 3]) {} (res, s) ∧
    res = ⟨3, none⟩ ∧ s.sent = [1, 2, 3] := by
  have hhealthy : Healthy (fun k => ⟨⟨5, none⟩, fun m =>
      if k = 0 ∧ 0 < m then .error eagain else .ok (min m 2)⟩) [1, 2, 3] := by
    refine ⟨fun _ => rfl, fun _ => if_neg fun h => lt_irrefl 0 h.2, fun k m hm => ?_,
      (Set.finite_singleton 0).subset fun k ⟨s, _, _, hsend⟩ => ?_⟩
    · by_cases hk : k = 0
      · exact .inr (if_pos ⟨hk, hm⟩)
      · exact .inl ⟨min m 2, by omega, by omega, if_neg fun h => hk h.1⟩
    · by_contra hk
      dsimp only at hsend
      rw [if_neg fun h => hk h.1] at hsend
      cases hsend
  obtain ⟨res, s, hreturns, hiff⟩ := write_sends_iff hhealthy
  exact ⟨res, s, hreturns, hiff.2 fun _ _ _ => Nat.succ_ne_zero 4⟩

/-- `await_resume` of a write leaves the count of 0 if the output queue is empty, and nothing of what can be sent is
    sent. -/
theorem write_not_sent : Healthy (fun _ => ⟨(({} : Scheduler).awaitResume 0 0).1, fun m => .ok m⟩) [1] ∧
    Loop.Returns (writeTurn (fun _ => ⟨(({} : Scheduler).awaitResume 0 0).1, fun m => .ok m⟩) [1]) {}
      (⟨0, some .closed⟩, {}) := by
  refine ⟨⟨fun _ => rfl, fun _ => rfl, fun _ m hm => .inl ⟨m, hm, le_rfl, rfl⟩, ?_⟩, .done rfl⟩
  exact Set.finite_empty.subset fun k ⟨s, _, _, hsend⟩ => by cases hsend

end Cppnet.Io.Socket
