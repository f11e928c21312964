import Cppnet.Io.ShortWrites

/-!
# `buffered_writer` on parents that report errors

A parent may accept part of what it is offered and report an error. The loops of a
`buffered_writer` keep count of what was accepted (`Direct.Sent`), and the results say so:
`flush` counts what it got written of the buffer (`flush_failed`), and `write`, from the loop that
bypasses the buffer, what of the data is taken over (`writeRest_failed`).

Two of the error paths then go wrong:

* `flush` leaves the buffer as it was, also where the parent accepted bytes of it, and another
  `flush` writes these twice (`flush_error_retry_iff`);
* `write` returns the error of `flush_available` with the result of that, which counts bytes of the
  buffer instead of the data (`write_error_count_iff`).
-/

namespace Cppnet.Io

open Lib

/-- The writes of a script up to the first that reports an error, with that. -/
def WriteEvent.upToError : List WriteEvent → List WriteEvent
  | [] => []
  | ev :: script => if ev.err.isSome then [ev] else ev :: upToError script

namespace BufferedWriter

section Lawful

variable {σ : Type*} [Writer σ Byte ErrorCondition]

/-- What a turn of a loop that writes the span `data` can be: the end, or a write of the next `k`
    elements, if there is `more` to write. An error ends the loop. -/
def Direct.Step (data : Bytes) (k : ℕ) (more : Prop) (s : Direct σ)
    (t : Turn (Direct σ) (Option Result × Direct σ)) : Prop :=
  (¬more ∧ t = .done (none, s)) ∨
  (more ∧ ∃ res impl, Writer.write s.impl (subspan data s.total k) = some (res, impl) ∧
    (res.err.isSome ∧
      t = .done (some ⟨s.total + res.count, res.err⟩, ⟨impl, s.total + res.count⟩) ∨
    res.err = none ∧ t = .next ⟨impl, s.total + res.count⟩))

theorem Direct.step_of_ite {data : Bytes} {k : ℕ} {more : Prop} [Decidable more] {s : Direct σ}
    {t : Turn (Direct σ) (Option Result × Direct σ)}
    (h : (if more then do
      let (res, impl) ← Writer.write s.impl (subspan data s.total k)
      if res.err.isSome then
        some (.done (some ⟨s.total + res.count, res.err⟩, ⟨impl, s.total + res.count⟩))
      else some (.next ⟨impl, s.total + res.count⟩)
    else some (.done (none, s))) = some t) : s.Step data k more t := by
  split at h
  · next hmore =>
    obtain ⟨⟨res, impl⟩, hwrite, h⟩ := Option.bind_eq_some_iff.1 h
    refine .inr ⟨hmore, res, impl, hwrite, ?_⟩
    dsimp only at h
    split at h
    · next herr => exact .inl ⟨herr, (Option.some.inj h).symm⟩
    · next herr =>
      rw [Bool.not_eq_true, Option.isSome_eq_false_iff, Option.isNone_iff_eq_none] at herr
      exact .inr ⟨herr, (Option.some.inj h).symm⟩
  · next hmore => exact .inl ⟨hmore, (Option.some.inj h).symm⟩

theorem directTurn_step {capacity : ℕ} {data : Bytes} {s : Direct σ}
    {t : Turn (Direct σ) (Option Result × Direct σ)} (h : directTurn capacity data s = some t) :
    s.Step data capacity (data.length - s.total > capacity) t :=
  Direct.step_of_ite h

theorem flushTurn_step {buf : Bytes} {s : Direct σ}
    {t : Turn (Direct σ) (Option Result × Direct σ)} (h : flushTurn buf s = some t) :
    s.Step buf (buf.length - s.total) (s.total < buf.length) t := by
  rw [flushTurn, ← subspan_rest] at h
  exact Direct.step_of_ite h

variable [LawfulWriter σ]

/-- A state `s` a loop that writes the span `data` reaches from `s₀`: the parent has accepted the
    span from there up to here. -/
def Direct.Sent (data : Bytes) (s₀ s : Direct σ) : Prop :=
  s.total ≤ data.length ∧ ∃ d, Writer.output s.impl = Writer.output s₀.impl ++ d ∧
    data.take s.total = data.take s₀.total ++ d

omit [LawfulWriter σ] in
theorem Direct.Sent.refl {data : Bytes} {s : Direct σ} (hs : s.total ≤ data.length) :
    Direct.Sent data s s :=
  ⟨hs, [], (List.append_nil _).symm, (List.append_nil _).symm⟩

/-- One more write. -/
theorem Direct.Sent.write {data : Bytes} {s₀ s : Direct σ} (h : Direct.Sent data s₀ s) {k : ℕ}
    {res : Result} {impl : σ}
    (hwrite : Writer.write s.impl (subspan data s.total k) = some (res, impl)) :
    Direct.Sent data s₀ ⟨impl, s.total + res.count⟩ := by
  obtain ⟨hle, d, hout, htake⟩ := h
  obtain ⟨hcount, hout'⟩ := LawfulWriter.accepts hwrite
  simp only [subspan, List.length_take, List.length_drop] at hcount
  refine ⟨by dsimp only; omega, d ++ (data.drop s.total).take res.count, ?_, ?_⟩
  · dsimp only
    rw [hout', hout, subspan, List.take_take, min_eq_left (by omega), List.append_assoc]
  · dsimp only
    rw [List.take_add, htake, List.append_assoc]

/-- A loop that writes a span is left where the parent has accepted what it counts, without an error
    only if there is no more to write. -/
theorem Direct.sent_of_returns {body : Direct σ → Option (Turn (Direct σ) (Option Result × Direct σ))}
    {data : Bytes} {k : Direct σ → ℕ} {more : Direct σ → Prop}
    (hbody : ∀ s t, body s = some t → s.Step data (k s) (more s) t) {s₀ s : Direct σ}
    {res : Option Result} (h : Loop.Returns body s₀ (res, s)) (hs₀ : s₀.total ≤ data.length) :
    Direct.Sent data s₀ s ∧ (res = none → ¬more s) ∧
      ∀ r ∈ res, r.count = s.total ∧ r.err.isSome := by
  refine h.invariant (Direct.Sent data s₀)
    (fun q => Direct.Sent data s₀ q.2 ∧ (q.1 = none → ¬more q.2) ∧
      ∀ r ∈ q.1, r.count = q.2.total ∧ r.err.isSome) ?_ ?_ (.refl hs₀)
  · intro s s' hs hturn
    rcases hbody s _ hturn with ⟨-, h⟩ | ⟨-, res, impl, hwrite, ⟨-, h⟩ | ⟨-, h⟩⟩
    · cases h
    · cases h
    · cases h
      exact hs.write hwrite
  · intro s q hs hturn
    rcases hbody s _ hturn with ⟨hmore, h⟩ | ⟨-, res, impl, hwrite, ⟨herr, h⟩ | ⟨-, h⟩⟩
    · cases h
      exact ⟨hs, fun _ => hmore, by simp⟩
    · cases h
      exact ⟨hs.write hwrite, by simp, by simpa using herr⟩
    · cases h

/-- A flush with an error has written what it counts of the buffer, and left the buffer as it was. -/
theorem flush_failed {w w' : BufferedWriter σ} {res : Result} (h : w.flush = some (res, w'))
    (herr : res.err.isSome) :
    res.count ≤ w.buf.length ∧ Writer.output w'.impl = Writer.output w.impl ++ w.buf.take res.count ∧
      w'.buf = w.buf := by
  obtain ⟨⟨early, s⟩, hrun, h⟩ := Option.bind_eq_some_iff.1 h
  obtain ⟨⟨hle, d, hout, htake⟩, -, hearly⟩ := Direct.sent_of_returns (fun _ _ => flushTurn_step)
    (Loop.returns_of_run hrun) (Nat.zero_le _)
  cases early with
  | none =>
    cases h
    cases herr
  | some r =>
    cases h
    rw [List.take_zero, List.nil_append] at htake
    rw [(hearly res rfl).1, htake]
    exact ⟨hle, hout, rfl⟩

/-- A flush without an error has written the buffer, and emptied it. -/
theorem flush_done {w w' : BufferedWriter σ} {res : Result} (h : w.flush = some (res, w'))
    (herr : res.err = none) :
    Writer.output w'.impl = Writer.output w.impl ++ w.buf ∧ w'.buf = [] := by
  obtain ⟨⟨early, s⟩, hrun, h⟩ := Option.bind_eq_some_iff.1 h
  obtain ⟨⟨hle, d, hout, htake⟩, hend, hearly⟩ :=
    Direct.sent_of_returns (fun _ _ => flushTurn_step) (Loop.returns_of_run hrun) (Nat.zero_le _)
  cases early with
  | none =>
    cases h
    rw [List.take_zero, List.nil_append, List.take_of_length_le (Nat.not_lt.1 (hend rfl))] at htake
    rw [htake]
    exact ⟨hout, rfl⟩
  | some r =>
    cases h
    have hsome := (hearly res rfl).2
    rw [herr] at hsome
    cases hsome

/-- The end of a write, if it reports an error: the parent has accepted the data from `total` up to
    the count, and the buffer is as it was. -/
theorem writeRest_failed {w w' : BufferedWriter σ} {total : ℕ} {data : Bytes} {res : Result}
    (h : w.writeRest total data = some (res, w')) (herr : res.err.isSome)
    (htotal : total ≤ data.length) :
    res.count ≤ data.length ∧ w'.buf = w.buf ∧
      ∃ d, Writer.output w'.impl = Writer.output w.impl ++ d ∧
        data.take res.count = data.take total ++ d := by
  obtain ⟨⟨early, s⟩, hrun, h⟩ := Option.bind_eq_some_iff.1 h
  obtain ⟨⟨hle, hsent⟩, -, hearly⟩ := Direct.sent_of_returns (fun _ _ => directTurn_step)
    (Loop.returns_of_run hrun) htotal
  cases early with
  | none =>
    dsimp only at h
    split at h
    · cases h
      cases herr
    · cases h
      cases herr
  | some r =>
    cases h
    rw [(hearly res rfl).1]
    exact ⟨hle, rfl, hsent⟩

end Lawful

/-! ## Flushing again after an error -/

/-- A flush with an error stopped before the end of the buffer, and counts no byte beyond those
    written before if and only if no write up to the error accepts one. -/
theorem flushTurn_count {buf : Bytes} {s : Direct Sink} {r : Option Result × Direct Sink}
    (h : Loop.Returns (flushTurn buf) s r) {res : Result} (hres : r.1 = some res) :
    s.total < buf.length ∧ s.total ≤ res.count ∧
      (res.count = s.total ↔ ∀ ev ∈ WriteEvent.upToError s.impl.script, ev.count = 0) := by
  induction h with
  | @done s r hb =>
    obtain ⟨⟨received, offered, script⟩, total⟩ := s
    rcases flushTurn_step hb with ⟨-, h⟩ | ⟨hmore, res', impl, hwrite, ⟨herr, h⟩ | ⟨-, h⟩⟩
    · cases h
      cases hres
    · cases h
      cases hres
      rw [subspan_rest] at hwrite
      cases hwrite
      cases script with
      | nil => cases herr
      | cons ev script =>
        rw [WriteEvent.upToError, if_pos (show ev.err.isSome from herr), List.forall_mem_singleton]
        dsimp only [List.head?_cons, Option.getD_some] at hmore ⊢
        rw [List.length_drop]
        omega
    · cases h
  | @next s s' r hb _ ih =>
    obtain ⟨⟨received, offered, script⟩, total⟩ := s
    rcases flushTurn_step hb with ⟨-, h⟩ | ⟨hmore, res', impl, hwrite, ⟨-, h⟩ | ⟨herr, h⟩⟩
    · cases h
    · cases h
    · cases h
      obtain ⟨hlt, hle, hiff⟩ := ih hres
      rw [subspan_rest] at hwrite
      cases hwrite
      cases script with
      | nil =>
        -- accepted in full: there is no more to write, and no error after it
        dsimp only [List.head?_nil, Option.getD_none] at hmore hlt
        rw [List.length_drop] at hlt
        omega
      | cons ev script =>
        have herr : ev.err = none := herr
        rw [WriteEvent.upToError, herr, if_neg (by simp), List.forall_mem_cons]
        dsimp only [List.head?_cons, Option.getD_some, List.tail_cons] at hmore hle hiff ⊢
        rw [List.length_drop] at hle hiff
        rcases Nat.eq_zero_or_pos ev.count with h0 | hpos
        · rw [h0, Nat.zero_min, Nat.add_zero] at hiff hle
          exact ⟨hmore, hle, by simp [hiff, h0]⟩
        · exact ⟨hmore, by omega, by omega⟩

/-- After a flush that reports an error: the bytes the parent has accepted, followed by the buffer,
    are those from before, and another flush writes what was left, if and only if the parent
    accepted no byte before it reported the error. -/
theorem flush_error_retry_iff (w w' : BufferedWriter Sink) (res : Result)
    (hflush : w.flush = some (res, w')) (herr : res.err.isSome) :
    (w'.impl.received ++ w'.buf = w.impl.received ++ w.buf ∧
      ∀ res' w'', w'.flush = some (res', w'') → res'.err = none →
        w''.impl.received = w.impl.received ++ w.buf) ↔
    ∀ ev ∈ WriteEvent.upToError w.impl.script, ev.count = 0 := by
  have hcount : res.count = 0 ↔ ∀ ev ∈ WriteEvent.upToError w.impl.script, ev.count = 0 := by
    obtain ⟨⟨early, s⟩, hrun, h⟩ := Option.bind_eq_some_iff.1 hflush
    cases early with
    | none =>
      cases h
      cases herr
    | some r =>
      cases h
      exact (flushTurn_count (Loop.returns_of_run hrun) rfl).2.2
  obtain ⟨hle, hout, hbuf⟩ := flush_failed hflush herr
  rw [Sink.writer_output, Sink.writer_output] at hout
  rw [← hcount]
  refine ⟨fun ⟨heq, _⟩ => ?_, fun h0 => ?_⟩
  · have hlen := congrArg List.length heq
    rw [hout, hbuf] at hlen
    simp only [List.length_append, List.length_take_of_le hle] at hlen
    omega
  · rw [h0, List.take_zero, List.append_nil] at hout
    refine ⟨by rw [hout, hbuf], fun res' w'' hflush' herr' => ?_⟩
    obtain ⟨hout', -⟩ := flush_done hflush' herr'
    rw [Sink.writer_output, Sink.writer_output, hout, hbuf] at hout'
    exact hout'

/-- A parent that accepts nothing, twice, and then reports an error. -/
theorem flush_error_retry_iff_nothing :
    ∃ w', (⟨⟨[7], [], [⟨0, none⟩, ⟨0, some .error⟩]⟩, [1, 2, 3], 4⟩ : BufferedWriter Sink).flush =
        some (⟨0, some .error⟩, w') ∧
      ∀ res' w'', w'.flush = some (res', w'') → res'.err = none → w''.impl.received = [7, 1, 2, 3] :=
  ⟨⟨⟨[7], [[1, 2, 3], [1, 2, 3]], []⟩, [1, 2, 3], 4⟩, rfl, ((flush_error_retry_iff
    ⟨⟨[7], [], [⟨0, none⟩, ⟨0, some .error⟩]⟩, [1, 2, 3], 4⟩ _ _ rfl rfl).2 (by decide)).2⟩

/-- A parent that accepts one byte of three and reports an error: the byte stays in the buffer, and
    is written twice when the flush is tried again. -/
theorem flush_retry_repeats_byte :
    ∃ res w', (⟨⟨[], [], [⟨1, some .error⟩]⟩, [1, 2, 3], 4⟩ : BufferedWriter Sink).flush =
        some (res, w') ∧ res.err.isSome ∧ w'.impl.received ++ w'.buf = [1, 1, 2, 3] ∧
      ∃ res' w'', w'.flush = some (res', w'') ∧ res'.err = none ∧ w''.impl.received = [1, 1, 2, 3] :=
  ⟨_, _, rfl, rfl, rfl, _, _, rfl, rfl, rfl⟩

/-! ## The count of a write with an error -/

/-- A write that reports an error finds no room for its data. Either the write of the full buffer
    reports the error, and its result is that of the write, with all that is topped up taken over; or
    a write past the buffer does, and the count is that of the bytes taken over. -/
theorem write_failed {w w' : BufferedWriter Sink} {data : Bytes} {res : Result}
    (hfits : w.buf.length ≤ w.capacity) (h : w.write data = some (res, w')) (herr : res.err.isSome) :
    w.capacity - w.buf.length < data.length ∧
    ((∃ ev ∈ w.impl.script.head?, ev.err.isSome ∧ res.count = min ev.count w.capacity ∧
        w'.impl.received ++ w'.buf =
          w.impl.received ++ w.buf ++ data.take (w.capacity - w.buf.length)) ∨
      (∀ ev ∈ w.impl.script.head?, ev.err = none) ∧ res.count ≤ data.length ∧
        (w'.impl.received ++ w'.buf).Perm (w.impl.received ++ w.buf ++ data.take res.count)) := by
  have hroom : w.capacity - w.buf.length < data.length := by
    by_contra hroom
    rw [write_of_fits hfits (Nat.not_lt.1 hroom)] at h
    cases h
    cases herr
  obtain ⟨hfull, hwrites⟩ := write_of_full hfits rfl hroom
  set topped := w.buf ++ data.take (w.capacity - w.buf.length) with htopped
  rcases hsink : w.impl.write topped with ⟨res₁, impl⟩
  have hwrite : Writer.write w.impl topped = some (res₁, impl) := congrArg some hsink
  obtain ⟨-, hout⟩ := LawfulWriter.accepts hwrite
  rw [hwrites, flushAvailable_eq (w := { w with buf := topped }) hwrite, Option.bind_some] at h
  have htaken : impl.received ++ topped.drop res₁.count = w.impl.received ++ topped := by
    rw [Sink.writer_output, Sink.writer_output] at hout
    rw [hout, List.append_assoc, List.take_append_drop]
  have hev : ∀ ev ∈ w.impl.script.head?, res₁ = ⟨min ev.count w.capacity, ev.err⟩ :=
    fun ev hev => by rw [← hfull, ← Sink.write_of_event hev, hsink]
  refine ⟨hroom, ?_⟩
  dsimp only at h
  split at h
  · next herr₁ =>
    cases h
    cases hhead : w.impl.script.head? with
    | none =>
      rw [Sink.write_of_script_eq_nil (List.head?_eq_none_iff.1 hhead)] at hsink
      cases hsink
      cases herr
    | some ev =>
      have hres := hev ev hhead
      refine .inl ⟨ev, rfl, ?_, ?_, ?_⟩
      · rwa [hres] at herr
      · rw [hres]
      · rw [htaken, htopped, List.append_assoc]
  · next herr₁ =>
    obtain ⟨hcount, hbuf, d, hout', htake⟩ := writeRest_failed h herr hroom.le
    refine .inr ⟨fun ev hmem => ?_, hcount, ?_⟩
    · rw [hev ev hmem] at herr₁
      simpa using herr₁
    · -- what bypassed the buffer came before what the buffer still holds
      rw [Sink.writer_output, Sink.writer_output] at hout'
      dsimp only at hbuf hout'
      rw [hout', hbuf, htake, List.append_assoc]
      refine (List.perm_append_comm.append_left _).trans ?_
      rw [← List.append_assoc, htaken, htopped]
      simp only [List.append_assoc]
      exact .refl _

/-- When a write reports an error, its count is the number of leading bytes of the data that were
    taken over, by the parent or the buffer, if and only if the error is not that of the write of the
    full buffer, or else that write accepts as many bytes as were added to the buffer before it. -/
theorem write_error_count_iff (w w' : BufferedWriter Sink) (data : Bytes) (res : Result)
    (hfits : w.buf.length ≤ w.capacity) (hwrite : w.write data = some (res, w'))
    (herr : res.err.isSome) :
    (res.count ≤ data.length ∧
      (w'.impl.received ++ w'.buf).Perm (w.impl.received ++ w.buf ++ data.take res.count)) ↔
    ∀ ev ∈ w.impl.script.head?, ev.err.isSome →
      min ev.count w.capacity = w.capacity - w.buf.length := by
  obtain ⟨hroom, ⟨ev, hev, hsome, hcount, hdata⟩ | ⟨hnone, hperm⟩⟩ := write_failed hfits hwrite herr
  · have hiff : (∀ ev ∈ w.impl.script.head?, ev.err.isSome →
        min ev.count w.capacity = w.capacity - w.buf.length) ↔
        res.count = w.capacity - w.buf.length := by
      rw [hcount]
      refine ⟨fun h => h ev hev hsome, fun h ev' hev' _ => ?_⟩
      rwa [← Option.mem_unique hev hev']
    rw [hiff, hdata]
    refine ⟨fun ⟨hle, hperm⟩ => ?_, fun h => ⟨by omega, by rw [h]⟩⟩
    have hlen := hperm.length_eq
    simp only [List.length_append, List.length_take_of_le hle, List.length_take] at hlen
    omega
  · refine ⟨fun _ ev hev hsome => ?_, fun _ => hperm⟩
    rw [hnone ev hev] at hsome
    cases hsome

/-- A capacity of 2, on a parent that accepts the full buffer, then one byte with an error: the count
    is 2, one byte behind the one that was added to the buffer. -/
theorem write_error_count_iff_two :
    ∃ w', (⟨⟨[], [], [⟨2, none⟩, ⟨1, some .error⟩]⟩, [1], 2⟩ : BufferedWriter Sink).write
        [2, 3, 4, 5, 6] = some (⟨2, some .error⟩, w') ∧
      (w'.impl.received ++ w'.buf).Perm [1, 2, 3] :=
  ⟨⟨⟨[1, 2, 3], [[1, 2], [3, 4]], []⟩, [], 2⟩, rfl, ((write_error_count_iff
    ⟨⟨[], [], [⟨2, none⟩, ⟨1, some .error⟩]⟩, [1], 2⟩ ⟨⟨[1, 2, 3], [[1, 2], [3, 4]], []⟩, [], 2⟩
    [2, 3, 4, 5, 6] ⟨2, some .error⟩ (by decide) rfl rfl).2 (by decide)).2⟩

/-- A capacity of 4 with three bytes in the buffer, on a parent that accepts two bytes of the full
    buffer and reports an error. One byte of the data is taken over, and the count is 2. -/
theorem write_error_counts_buffer :
    ∃ w', (⟨⟨[], [], [⟨2, some .error⟩]⟩, [1, 2, 3], 4⟩ : BufferedWriter Sink).write [4, 5, 6] =
        some (⟨2, some .error⟩, w') ∧ w'.impl.received ++ w'.buf = [1, 2, 3] ++ [4] ∧
      ¬(w'.impl.received ++ w'.buf).Perm ([1, 2, 3] ++ [4, 5]) :=
  ⟨⟨⟨[1, 2], [[1, 2, 3, 4]], []⟩, [3, 4], 4⟩, rfl, rfl, by decide⟩

end BufferedWriter

end Cppnet.Io
