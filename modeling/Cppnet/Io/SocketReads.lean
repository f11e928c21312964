import Cppnet.Io.KqueueLoop
import Cppnet.Io.Socket

/-!
# Reading from a socket

`socket.cpp`: `read` waits until the socket is ready, and then receives as many bytes as it was told that there are, if
its span has room for them; a zero that `recv` returns is taken for a closed connection. With `epoll_loop`, it is told
how many there are when it is resumed, and with `kqueue_loop`, how many there were when the event was found.

Where there are bytes already, `epoll_loop` does not wait; then the operation has no coroutine, but is still asked for
the result of its coroutine, which is undefined.

The steps are those of the peer, of a reader that calls `read` again and again, and of the event loop. Nothing is wrong
with the connection, and no one else reads from it.

* `reads_source`: with both loops, whatever the order of the steps, what the reads return is what a source would give
  them, and it is all defined as long as there are no bytes whenever `epoll_loop` is about to wait, and not any longer.
-/

namespace Cppnet.Io

open Lib

/-- What reads into spans of these sizes report and hand out. -/
def Source.answers (s : Source) : List ℕ → List (Result × Bytes)
  | [] => []
  | n :: ns =>
    let (res, data, s') := s.read (List.replicate n 0)
    (res, data.take res.count) :: s'.answers ns

/-- A read that hands out `k` bytes. -/
theorem Source.answers_cons {pending : Bytes} {count n k : ℕ} {script : List ReadEvent} {e : Option ErrorCondition}
    (hk : min (min count n) pending.length = k) (ns : List ℕ) :
    Source.answers ⟨pending, ⟨count, none⟩ :: script, e⟩ (n :: ns) =
      (⟨k, if pending = [] then e else none⟩, pending.take k) ::
        Source.answers ⟨pending.drop k, script, e⟩ ns := by
  have hcount : Source.nextCount ⟨pending, ⟨count, none⟩ :: script, e⟩ (List.replicate n (0 : Byte)).length = k := by
    rw [List.length_replicate]
    exact hk
  have hlen : (pending.take k).length = k := by
    rw [List.length_take]
    exact min_eq_left (hk ▸ min_le_right _ _)
  rw [Source.answers, Source.read, hcount]
  dsimp only
  rw [List.take_left' hlen]
  rfl

namespace Socket

/-- The event loops. -/
inductive EventLoop
  | epoll
  | kqueue
  deriving DecidableEq

/-- Where the reader is: before a call of `read`, at `schedule`, waiting, or with the result of an event. -/
inductive Reading
  | idle
  | scheduling (size : ℕ)
  | waiting (size : ℕ)
  | found (size : ℕ) (res : Result)
  deriving DecidableEq

/-- A connection with its reader: the bytes that have arrived and were not received yet, and whether the peer has shut
    it down. -/
structure Receiving where
  queue : Bytes := []
  ended : Bool := false
  reading : Reading := .idle
  deriving DecidableEq

namespace Receiving

/-- What is to be seen of a step: a read of some size returns, or what is done is undefined. -/
inductive Outcome
  | quiet
  | returned (size : ℕ) (res : Result) (data : Bytes)
  | undefined
  deriving DecidableEq

/-- What a read returns, if it asks for something. -/
def Outcome.answer : Outcome → Option (ℕ × Result × Bytes)
  | returned size res data => if size = 0 then none else some (size, res, data)
  | _ => none

variable (loop : EventLoop) (s : Receiving)

/-- The result that `dispatch` gives for the event of the socket. -/
def eventResult : Result :=
  match loop with
  | .epoll => Flags.result { rdhup := s.ended }
  | .kqueue => Kqueue.Kevent.result ⟨.read, { eof := s.ended, data := s.queue.length }, 0⟩

/-- `await_resume`. -/
def awaitResume (res : Result) : Result :=
  match loop with
  | .epoll => { res with count := if s.queue.length > 0 then s.queue.length else res.count }
  | .kqueue => res

/-- `recv`, or its `errno`. -/
def recv (amount : ℕ) : Except ℕ Bytes :=
  if amount = 0 then .ok []
  else if s.queue = [] ∧ s.ended = false then .error eagain
  else .ok (s.queue.take amount)

/-- `read`, from where `schedule` comes back to where it is called again, or to the end. -/
def goOn (size : ℕ) (res : Result) : Outcome × Receiving :=
  let res := s.awaitResume loop res
  if res.err.isSome ∧ res.count = 0 then (.returned size res [], { s with reading := .idle })
  else
    match s.recv (min res.count size) with
    | .error errno =>
      if errno = eagain then (.quiet, { s with reading := .scheduling size })
      else (.returned size ⟨0, some (.system errno)⟩ [], { s with reading := .idle })
    | .ok [] => (.returned size ⟨0, some .closed⟩ [], { s with reading := .idle })
    | .ok (b :: data) => (.returned size ⟨(b :: data).length, none⟩ (b :: data),
        { s with queue := s.queue.drop (b :: data).length, reading := .idle })

/-- The steps. -/
inductive Action
  | arrive (data : Bytes)
  | shutdown
  | read (size : ℕ)
  | schedule
  | find
  | resume

/-- The bytes that arrive. -/
def Action.data : Action → Bytes
  | arrive data => data
  | _ => []

/-- One step. -/
def step : Action → Option (Outcome × Receiving)
  | .arrive data => if s.ended then none else some (.quiet, { s with queue := s.queue ++ data })
  | .shutdown => some (.quiet, { s with ended := true })
  | .read size =>
    if s.reading = .idle then
      if size > 0 then some (.quiet, { s with reading := .scheduling size }) else some (.returned 0 ⟨0, none⟩ [], s)
    else none
  | .schedule =>
    match s.reading with
    | .scheduling size =>
      -- `await_ready`, after which `await_resume` has no coroutine.
      if loop = .epoll ∧ s.queue ≠ [] then some (.undefined, s)
      else some (.quiet, { s with reading := .waiting size })
    | _ => none
  | .find =>
    match s.reading with
    | .waiting size =>
      if s.queue ≠ [] ∨ s.ended then some (.quiet, { s with reading := .found size (s.eventResult loop) }) else none
    | _ => none
  | .resume =>
    match s.reading with
    | .found size res => some (s.goOn loop size res)
    | _ => none

/-- Where `epoll_loop` is about to wait, there are no bytes. -/
def Waits : Action → Prop
  | .schedule => loop = .epoll → s.queue = []
  | _ => True

/-- An event that was found: there are bytes, or the connection was shut down. -/
structure Found (queue : Bytes) (ended : Bool) (res : Result) : Prop where
  le : res.count ≤ queue.length
  nonempty : res.err = none → queue ≠ []
  closed : ∀ e ∈ res.err, e = .closed ∧ ended = true
  empty : loop = .kqueue → res.count = 0 → queue = []

/-- A read that waits, or is about to, asks for something, and is told what there is. -/
def Inv : Prop :=
  match s.reading with
  | .idle => True
  | .scheduling size => 0 < size
  | .waiting size => 0 < size
  | .found size res => 0 < size ∧ Found loop s.queue s.ended res

variable {loop s} {s' : Receiving} {a : Action} {o : Outcome}

theorem found_eventResult (h : s.queue ≠ [] ∨ s.ended = true) :
    Found loop s.queue s.ended (s.eventResult loop) := by
  obtain ⟨queue, ended, reading⟩ := s
  cases loop with
  | epoll =>
    cases ended with
    | false => exact ⟨Nat.zero_le _, fun _ => h.resolve_right Bool.false_ne_true, by simp [eventResult, Flags.result],
        fun heq => by cases heq⟩
    | true => exact ⟨Nat.zero_le _, by simp [eventResult, Flags.result], by simp [eventResult, Flags.result],
        fun heq => by cases heq⟩
  | kqueue =>
    cases ended with
    | false => exact ⟨le_rfl, fun _ => h.resolve_right Bool.false_ne_true,
        by simp [eventResult, Kqueue.Kevent.result], fun _ => List.length_eq_zero_iff.1⟩
    | true => exact ⟨le_rfl, by simp [eventResult, Kqueue.Kevent.result], by simp [eventResult, Kqueue.Kevent.result],
        fun _ => List.length_eq_zero_iff.1⟩

/-- What was found is still there when more has arrived. -/
theorem Found.arrive {queue : Bytes} {res : Result} (h : Found loop queue false res) (data : Bytes) :
    Found loop (queue ++ data) false res where
  le := h.le.trans (by simp)
  nonempty := fun herr heq => h.nonempty herr (List.append_eq_nil_iff.1 heq).1
  closed := h.closed
  empty := fun hloop hcount => by
    have hnil := h.empty hloop hcount
    cases herr : res.err with
    | none => exact absurd hnil (h.nonempty herr)
    | some e => cases (h.closed e herr).2

/-- A read with what was found: it hands out some of the bytes that there are, or there are none, and the connection is
    closed. -/
theorem Found.goOn {size : ℕ} {res : Result} (h : Found loop s.queue s.ended res) (hsize : 0 < size) :
    (s.queue = [] ∧ s.ended = true ∧
      s.goOn loop size res = (.returned size ⟨0, some .closed⟩ [], { s with reading := .idle })) ∨
    ∃ k, 0 < k ∧ k ≤ size ∧ k ≤ s.queue.length ∧ s.goOn loop size res =
      (.returned size ⟨k, none⟩ (s.queue.take k), { s with queue := s.queue.drop k, reading := .idle }) := by
  have herr : (s.awaitResume loop res).err = res.err := by cases loop <;> rfl
  have hle : (s.awaitResume loop res).count ≤ s.queue.length := by
    cases loop with
    | epoll =>
      change (if s.queue.length > 0 then s.queue.length else res.count) ≤ _
      split_ifs
      · exact le_rfl
      · exact h.le
    | kqueue => exact h.le
  have hnil : (s.awaitResume loop res).count = 0 → s.queue = [] := by
    intro hcount
    cases loop with
    | epoll =>
      change (if s.queue.length > 0 then s.queue.length else res.count) = 0 at hcount
      split_ifs at hcount with hpos
      · exact List.length_eq_zero_iff.1 hcount
      · exact List.length_eq_zero_iff.1 (Nat.eq_zero_of_not_pos hpos)
    | kqueue => exact h.empty rfl hcount
  rw [Receiving.goOn]
  by_cases hcount : (s.awaitResume loop res).count = 0
  · left
    have hqueue := hnil hcount
    cases hres : res.err with
    | none => exact absurd hqueue (h.nonempty hres)
    | some e =>
      obtain ⟨rfl, hended⟩ := h.closed e hres
      rw [hres] at herr
      have hres' : s.awaitResume loop res = ⟨0, some .closed⟩ := by
        cases hawait : s.awaitResume loop res with
        | mk count err =>
          rw [hawait] at hcount herr
          rw [show count = 0 from hcount, show err = _ from herr]
      refine ⟨hqueue, hended, ?_⟩
      rw [hres', if_pos ⟨rfl, rfl⟩]
  · right
    have hpos : 0 < min (s.awaitResume loop res).count size := lt_min (Nat.pos_of_ne_zero hcount) hsize
    have hk := (min_le_left _ size).trans hle
    have hne : s.queue ≠ [] := List.ne_nil_of_length_pos (hpos.trans_le hk)
    have hrecv : s.recv (min (s.awaitResume loop res).count size) =
        .ok (s.queue.take (min (s.awaitResume loop res).count size)) := by
      rw [recv, if_neg hpos.ne', if_neg fun h => hne h.1]
    have hlen : (s.queue.take (min (s.awaitResume loop res).count size)).length =
        min (s.awaitResume loop res).count size := by
      rw [List.length_take, min_eq_left hk]
    refine ⟨_, hpos, min_le_right _ _, hk, ?_⟩
    rw [if_neg fun h => hcount h.2, hrecv]
    cases htake : s.queue.take (min (s.awaitResume loop res).count size) with
    | nil =>
      rw [htake] at hlen
      exact absurd hlen hpos.ne
    | cons b data =>
      rw [htake] at hlen
      dsimp only
      rw [hlen]

theorem Inv.found {size : ℕ} {res : Result} (h : s.Inv loop) (hreading : s.reading = .found size res) :
    0 < size ∧ Found loop s.queue s.ended res := by
  simpa only [Inv, hreading] using h

/-- A step: nothing is returned that counts, or a read returns what there is. -/
theorem Inv.step (h : s.Inv loop) (hstep : s.step loop a = some (o, s')) :
    s'.Inv loop ∧ (s.ended = true → s'.ended = true ∧ a.data = []) ∧
    ((o.answer = none ∧ s'.queue = s.queue ++ a.data) ∨
      ∃ size, 0 < size ∧ a.data = [] ∧
        ((o = .returned size ⟨0, some .closed⟩ [] ∧ s.queue = [] ∧ s.ended = true ∧ s'.queue = []) ∨
          ∃ k, 0 < k ∧ k ≤ size ∧ k ≤ s.queue.length ∧ o = .returned size ⟨k, none⟩ (s.queue.take k) ∧
            s'.queue = s.queue.drop k)) := by
  cases a with
  | arrive data =>
    rw [Receiving.step] at hstep
    split_ifs at hstep with hended
    cases hstep
    rw [Bool.not_eq_true] at hended
    refine ⟨?_, fun htrue => (Bool.false_ne_true (hended.symm.trans htrue)).elim, .inl ⟨rfl, rfl⟩⟩
    obtain ⟨queue, ended, reading⟩ := s
    obtain rfl : ended = false := hended
    cases reading with
    | idle => trivial
    | scheduling size => exact h
    | waiting size => exact h
    | found size res => exact ⟨h.1, h.2.arrive data⟩
  | shutdown =>
    cases hstep
    refine ⟨?_, fun _ => ⟨rfl, rfl⟩, .inl ⟨rfl, (List.append_nil _).symm⟩⟩
    rw [Inv] at h ⊢
    cases hreading : s.reading with
    | idle => trivial
    | scheduling size => simpa only [hreading] using h
    | waiting size => simpa only [hreading] using h
    | found size res =>
      simp only [hreading] at h ⊢
      exact ⟨h.1, h.2.le, h.2.nonempty, fun e he => ⟨(h.2.closed e he).1, rfl⟩, h.2.empty⟩
  | read size =>
    rw [Receiving.step] at hstep
    split_ifs at hstep with hidle hsize
    · cases hstep
      exact ⟨hsize, fun htrue => ⟨htrue, rfl⟩, .inl ⟨rfl, (List.append_nil _).symm⟩⟩
    · cases hstep
      exact ⟨h, fun htrue => ⟨htrue, rfl⟩, .inl ⟨rfl, (List.append_nil _).symm⟩⟩
  | schedule =>
    rw [Receiving.step] at hstep
    split at hstep
    · next size hreading =>
      have hsize : 0 < size := by simpa only [Inv, hreading] using h
      split_ifs at hstep with hready
      · cases hstep
        exact ⟨h, fun htrue => ⟨htrue, rfl⟩, .inl ⟨rfl, (List.append_nil _).symm⟩⟩
      · cases hstep
        exact ⟨hsize, fun htrue => ⟨htrue, rfl⟩, .inl ⟨rfl, (List.append_nil _).symm⟩⟩
    · cases hstep
  | find =>
    rw [Receiving.step] at hstep
    split at hstep
    · next size hreading =>
      have hsize : 0 < size := by simpa only [Inv, hreading] using h
      split_ifs at hstep with hready
      cases hstep
      exact ⟨⟨hsize, found_eventResult hready⟩, fun htrue => ⟨htrue, rfl⟩,
        .inl ⟨rfl, (List.append_nil _).symm⟩⟩
    · cases hstep
  | resume =>
    rw [Receiving.step] at hstep
    split at hstep
    · next size res hreading =>
      obtain ⟨hasked, hfound⟩ := h.found hreading
      rcases hfound.goOn hasked with ⟨hqueue, hended, heq⟩ | ⟨k, hpos, hsize, hlen, heq⟩
      · rw [heq] at hstep
        cases hstep
        exact ⟨trivial, fun htrue => ⟨htrue, rfl⟩, .inr ⟨size, hasked, rfl, .inl ⟨rfl, hqueue, hended, hqueue⟩⟩⟩
      · rw [heq] at hstep
        cases hstep
        exact ⟨trivial, fun htrue => ⟨htrue, rfl⟩,
          .inr ⟨size, hasked, rfl, .inr ⟨k, hpos, hsize, hlen, rfl, rfl⟩⟩⟩
    · cases hstep

/-- A step is undefined where `epoll_loop` is about to wait and there are bytes. -/
theorem Inv.undefined_iff (h : s.Inv loop) (hstep : s.step loop a = some (o, s')) :
    o = .undefined ↔ ¬s.Waits loop a := by
  have hnot : o ≠ .undefined → (s.Waits loop a) → (o = .undefined ↔ ¬s.Waits loop a) := fun hne hwaits =>
    iff_of_false hne (not_not.2 hwaits)
  cases a with
  | schedule =>
    rw [Receiving.step] at hstep
    split at hstep
    · split_ifs at hstep with hready
      · cases hstep
        exact iff_of_true rfl fun hwaits => hready.2 (hwaits hready.1)
      · cases hstep
        exact hnot Outcome.noConfusion fun hloop => not_not.1 fun hne => hready ⟨hloop, hne⟩
    · cases hstep
  | arrive data =>
    rw [Receiving.step] at hstep
    split_ifs at hstep
    cases hstep
    exact hnot Outcome.noConfusion trivial
  | shutdown =>
    cases hstep
    exact hnot Outcome.noConfusion trivial
  | read size =>
    rw [Receiving.step] at hstep
    split_ifs at hstep
    all_goals
      cases hstep
      exact hnot Outcome.noConfusion trivial
  | find =>
    rw [Receiving.step] at hstep
    split at hstep
    · split_ifs at hstep
      cases hstep
      exact hnot Outcome.noConfusion trivial
    · cases hstep
  | resume =>
    rw [Receiving.step] at hstep
    split at hstep
    · next size res hreading =>
      obtain ⟨hasked, hfound⟩ := h.found hreading
      rcases hfound.goOn hasked with ⟨-, -, heq⟩ | ⟨k, -, -, -, heq⟩
      all_goals
        rw [heq] at hstep
        cases hstep
        exact hnot Outcome.noConfusion trivial
    · cases hstep

/-- Nothing arrives any more when the peer has shut down. -/
theorem arrived_of_ended {as : List Action} {os : List Outcome} (h : s.Inv loop) (hended : s.ended = true)
    (hexec : exec (Receiving.step loop) s as = some (os, s')) : as.flatMap Action.data = [] := by
  induction as generalizing s os with
  | nil => rfl
  | cons a as ih =>
    obtain ⟨o, s₁, os', hstep, hrest, -⟩ := exec_cons_eq_some.1 hexec
    obtain ⟨hinv, hkept, -⟩ := h.step hstep
    rw [List.flatMap_cons, (hkept hended).2, ih hinv (hkept hended).1 hrest]
    rfl

/-- The reads of a run from any state, and those of a source. -/
theorem Inv.reads {as : List Action} {os : List Outcome} (h : s.Inv loop)
    (hexec : exec (Receiving.step loop) s as = some (os, s')) :
    ∃ script, (∀ ev ∈ script, 0 < ev.count ∧ ev.err = none) ∧
      Source.answers ⟨s.queue ++ as.flatMap Action.data, script, some .closed⟩
        ((os.filterMap Outcome.answer).map Prod.fst) = (os.filterMap Outcome.answer).map Prod.snd := by
  induction as generalizing s os with
  | nil =>
    cases hexec
    exact ⟨[], by simp, rfl⟩
  | cons a as ih =>
    obtain ⟨o, s₁, os', hstep, hrest, rfl⟩ := exec_cons_eq_some.1 hexec
    obtain ⟨hinv, hkept, hcases⟩ := h.step hstep
    obtain ⟨script, hscript, hanswers⟩ := ih hinv hrest
    rw [List.flatMap_cons]
    rcases hcases with ⟨hanswer, hqueue⟩ | ⟨size, hsize, hdata, ⟨rfl, hqueue, hended, hqueue'⟩ |
      ⟨k, hpos, hle, hlen, rfl, hqueue⟩⟩
    · refine ⟨script, hscript, ?_⟩
      rw [List.filterMap_cons_none hanswer, ← List.append_assoc, ← hqueue]
      exact hanswers
    · -- The stream is at its end: nothing has arrived that was not received, and nothing will.
      refine ⟨⟨1, none⟩ :: script, List.forall_mem_cons.2 ⟨⟨Nat.one_pos, rfl⟩, hscript⟩, ?_⟩
      have hend := arrived_of_ended hinv (hkept hended).1 hrest
      have hanswer : Outcome.answer (.returned size ⟨0, some .closed⟩ []) =
          some (size, ⟨0, some .closed⟩, []) := if_neg hsize.ne'
      rw [hqueue', hend] at hanswers
      rw [List.filterMap_cons_some hanswer, List.map_cons, List.map_cons, hqueue, hdata, hend,
        Source.answers_cons (k := 0) (by simp), ← hanswers]
      rfl
    · refine ⟨⟨k, none⟩ :: script, List.forall_mem_cons.2 ⟨⟨hpos, rfl⟩, hscript⟩, ?_⟩
      have hanswer : Outcome.answer (.returned size ⟨k, none⟩ (s.queue.take k)) =
          some (size, ⟨k, none⟩, s.queue.take k) := if_neg hsize.ne'
      have hne : s.queue ++ as.flatMap Action.data ≠ [] := fun heq =>
        List.ne_nil_of_length_pos (hpos.trans_le hlen) (List.append_eq_nil_iff.1 heq).1
      have hmin : min (min k size) (s.queue ++ as.flatMap Action.data).length = k := by
        rw [min_eq_left hle, List.length_append]
        exact min_eq_left (hlen.trans (Nat.le_add_right _ _))
      rw [List.filterMap_cons_some hanswer, List.map_cons, List.map_cons, hdata, List.nil_append,
        Source.answers_cons hmin, if_neg hne, List.take_append_of_le_length hlen, List.drop_append_of_le_length hlen,
        ← hqueue, hanswers]

theorem Inv.faultless {as : List Action} {os : List Outcome} (h : s.Inv loop)
    (hexec : exec (Receiving.step loop) s as = some (os, s')) :
    .undefined ∉ os ↔ Along (Receiving.step loop) (Waits loop) s as := by
  induction as generalizing s os with
  | nil =>
    cases hexec
    exact iff_of_true List.not_mem_nil trivial
  | cons a as ih =>
    obtain ⟨o, s₁, os', hstep, hrest, rfl⟩ := exec_cons_eq_some.1 hexec
    have hwaits : ¬o = .undefined ↔ s.Waits loop a := by rw [h.undefined_iff hstep, not_not]
    rw [List.mem_cons, not_or, Along, eq_comm, hwaits, ih (h.step hstep).1 hrest]
    refine and_congr_right fun _ => ⟨fun halong o' s₂ hstep' => ?_, fun halong => halong o s₁ hstep⟩
    cases hstep.symm.trans hstep'
    exact halong

/-- In every run, with both event loops, what the reads return is what reads of the same sizes get from a source whose
    stream is all that the peer sends, and whose end is that the connection is closed; and nothing is undefined as long
    as there are no bytes whenever `epoll_loop` is about to wait, and not any longer. -/
theorem reads_source {loop : EventLoop} {as : List Action} {os : List Outcome} {s : Receiving}
    (hexec : exec (Receiving.step loop) {} as = some (os, s)) :
    (∃ script, Source.Clean ⟨as.flatMap Action.data, script, some .closed⟩ ∧
      Source.answers ⟨as.flatMap Action.data, script, some .closed⟩ ((os.filterMap Outcome.answer).map Prod.fst) =
        (os.filterMap Outcome.answer).map Prod.snd) ∧
    (.undefined ∉ os ↔ Along (Receiving.step loop) (Waits loop) {} as) := by
  have hinv : Inv loop {} := trivial
  exact ⟨hinv.reads hexec, hinv.faultless hexec⟩

/-- Three bytes, read by two. -/
theorem reads_source_three : ∃ script, Source.Clean ⟨[1, 2, 3], script, some .closed⟩ ∧
    Source.answers ⟨[1, 2, 3], script, some .closed⟩ [2, 2] = [(⟨2, none⟩, [1, 2]), (⟨1, none⟩, [3])] :=
  (@reads_source .kqueue [.read 2, .schedule, .arrive [1, 2, 3], .find, .resume, .read 2, .schedule, .find, .resume]
    _ _ rfl).1

end Receiving

end Socket

end Cppnet.Io
