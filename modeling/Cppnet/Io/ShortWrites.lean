import Cppnet.Io.BufferedWriter

/-!
# `buffered_writer` on parents that accept part of a write

A parent may accept less than it is offered. Of the writes that a `buffered_writer`
makes to it, those that bypass the buffer and those of `flush` are repeated from where
the parent stopped (`directTurn_taking`, `flush_taking`). The write of the full buffer
in `flush_available` is not: what the parent did not accept stays in the buffer, and
`write` then puts the rest of its data there in its place (`writeRest_taking`), as
there always is some (the loop that bypasses the buffer stops with one byte left, or
more).

So a call keeps all bytes if it needs no room in the buffer, or if the parent accepts
the full buffer (`Keeps`), and else loses those the parent did not accept
(`call_taking`). Lost bytes are never made up for: at the end of a run nothing is
missing if and only if every call of it kept all bytes
(`runCalls_received_append_buf_iff`).
-/

namespace Cppnet.Io.BufferedWriter

open Lib

variable {σ : Type*} [Writer σ Byte ErrorCondition] [LawfulWriter σ] [TakingWriter σ]
  {w : BufferedWriter σ}

/-- A buffered writer on a parent that accepts some of each write, with room for a byte. -/
structure Taking (w : BufferedWriter σ) : Prop where
  taking : TakingWriter.Taking w.impl
  capacity_pos : 0 < w.capacity
  fits : w.buf.length ≤ w.capacity

omit [LawfulWriter σ] [TakingWriter σ] in
/-- One write of the buffer: what is not accepted stays there. -/
theorem flushAvailable_eq {impl : σ} {res : Result}
    (hwrite : Writer.write w.impl w.buf = some (res, impl)) :
    w.flushAvailable = some (res, { w with impl, buf := w.buf.drop res.count }) := by
  rw [flushAvailable, hwrite, Option.bind_eq_bind, Option.bind_some]
  dsimp only
  split
  · rw [resize_overwrite_drop]
  · next h => rw [List.drop_eq_nil_of_le (Nat.not_lt.1 h)]

omit [TakingWriter σ] in
/-- A write from an offset of a span, accepted in part: the output followed by the span from where
    the parent stopped is the same as before. -/
theorem output_append_drop {s s' : σ} {data : Bytes} {total k : ℕ} {res : Result}
    (hwrite : Writer.write s (subspan data total k) = some (res, s')) :
    Writer.output s' ++ data.drop (total + res.count) = Writer.output s ++ data.drop total := by
  obtain ⟨hle, hout⟩ := LawfulWriter.accepts hwrite
  simp only [subspan, List.length_take] at hle
  rw [hout, subspan, List.take_take, min_eq_left (hle.trans (min_le_left _ _)), List.append_assoc,
    ← List.drop_drop, List.take_append_drop]

/-- A state `s` a loop that writes the span `data` may reach from `s₀`. -/
structure Direct.Written (data : Bytes) (s₀ s : Direct σ) : Prop where
  taking : TakingWriter.Taking s.impl
  output_append : Writer.output s.impl ++ data.drop s.total =
    Writer.output s₀.impl ++ data.drop s₀.total

/-- One more write of the loop that bypasses the buffer. It leaves at least one byte. -/
theorem directTurn_written {capacity : ℕ} {data : Bytes} {s₀ s : Direct σ}
    (hs : s₀.Written data s) (hcap : 0 < capacity) (hmore : data.length - s.total > capacity) :
    ∃ s', directTurn capacity data s = some (.next s') ∧ s₀.Written data s' ∧
      s.total < s'.total ∧ s'.total < data.length := by
  have hspan : (subspan data s.total capacity).length = capacity := length_subspan (by omega)
  obtain ⟨k, impl, hwrite, himpl, hpos⟩ :=
    TakingWriter.write_taking (subspan data s.total capacity) hs.taking
  have hk : k ≤ (subspan data s.total capacity).length := (LawfulWriter.accepts hwrite).1
  have hpos : 0 < k := hpos (List.ne_nil_of_length_pos (by omega))
  refine ⟨⟨impl, s.total + k⟩, ?_, ⟨himpl, ?_⟩, ?_, ?_⟩
  · rw [directTurn, if_pos hmore, hwrite]
    rfl
  · exact (output_append_drop hwrite).trans hs.output_append
  · exact Nat.lt_add_of_pos_right hpos
  · dsimp only
    omega

/-- The loop that bypasses the buffer writes the data until no more than one capacity is left, and
    leaves at least one byte. -/
theorem directTurn_taking (s₀ : Direct σ) {capacity : ℕ} {data : Bytes} {n : ℕ}
    (himpl : TakingWriter.Taking s₀.impl) (hcap : 0 < capacity)
    (htotal : s₀.total < data.length) (hn : data.length < n) :
    ∃ s, Loop.run (directTurn capacity data) n s₀ = some (none, s) ∧ s₀.Written data s ∧
      s.total < data.length ∧ data.length - s.total ≤ capacity := by
  obtain ⟨⟨res, s⟩, hrun, hres, h⟩ := Loop.run_total
    (fun s => s₀.Written data s ∧ s.total < data.length)
    (fun q : Option Result × Direct σ => q.1 = none ∧ s₀.Written data q.2 ∧
      q.2.total < data.length ∧ data.length - q.2.total ≤ capacity)
    (fun s => data.length - s.total) (fun s ⟨hs, hlt⟩ => by
      by_cases hmore : data.length - s.total > capacity
      · obtain ⟨s', hturn, hs', hlt', hend⟩ := directTurn_written hs hcap hmore
        exact .inl ⟨s', hturn, ⟨hs', hend⟩, by omega⟩
      · have hturn : directTurn capacity data s = some (.done (none, s)) := by
          rw [directTurn, if_neg hmore]
        exact .inr ⟨(none, s), hturn, rfl, hs, hlt, Nat.not_lt.1 hmore⟩)
    ⟨⟨himpl, rfl⟩, htotal⟩ (Nat.lt_of_le_of_lt (Nat.sub_le _ _) hn)
  exact ⟨s, hres ▸ hrun, h⟩

/-- The end of a write puts the data from `total` on behind the output of the parent. What was in
    the buffer is gone. -/
theorem writeRest_taking (hw : w.Taking) {total : ℕ} {data : Bytes} (htotal : total < data.length) :
    ∃ w', w.writeRest total data = some (⟨data.length, none⟩, w') ∧ w'.Taking ∧
      w'.capacity = w.capacity ∧
      Writer.output w'.impl ++ w'.buf = Writer.output w.impl ++ data.drop total := by
  obtain ⟨s, hrun, hs, hlt, hleft⟩ :=
    directTurn_taking ⟨w.impl, total⟩ (n := Writer.fuel w.impl + data.length + 1)
      hw.taking hw.capacity_pos htotal (by omega)
  have hcopy : overwrite (resize 0 w.buf (data.length - s.total)) 0
      (subspan data s.total (data.length - s.total)) = data.drop s.total := by
    rw [subspan_rest, ← List.length_drop, overwrite_resize_zero]
  refine ⟨{ w with impl := s.impl, buf := data.drop s.total }, ?_,
    ⟨hs.taking, hw.capacity_pos, ?_⟩, rfl, hs.output_append⟩
  · rw [writeRest, hrun, Option.bind_eq_bind, Option.bind_some]
    dsimp only
    rw [if_pos (by omega), hcopy, Nat.add_sub_cancel' (Nat.le_of_lt hlt)]
  · rw [List.length_drop]
    exact hleft

/-- One more write of the loop in `flush`. -/
theorem flushTurn_written {buf : Bytes} {s₀ s : Direct σ} (hs : s₀.Written buf s)
    (hmore : s.total < buf.length) :
    ∃ s', flushTurn buf s = some (.next s') ∧ s₀.Written buf s' ∧ s.total < s'.total ∧
      s'.total ≤ buf.length := by
  obtain ⟨k, impl, hwrite, himpl, hpos⟩ := TakingWriter.write_taking (buf.drop s.total) hs.taking
  have hk : k ≤ (buf.drop s.total).length := (LawfulWriter.accepts hwrite).1
  rw [List.length_drop] at hk
  have hpos : 0 < k := hpos (List.ne_nil_of_length_pos (by rw [List.length_drop]; omega))
  refine ⟨⟨impl, s.total + k⟩, ?_, ⟨himpl, ?_⟩, ?_, ?_⟩
  · rw [flushTurn, if_pos hmore, hwrite]
    rfl
  · rw [← subspan_rest] at hwrite
    exact (output_append_drop hwrite).trans hs.output_append
  · exact Nat.lt_add_of_pos_right hpos
  · dsimp only
    omega

/-- A flush writes the buffer, in as many pieces as it takes, and empties it. -/
theorem flush_taking (hw : w.Taking) :
    ∃ w', w.flush = some (⟨w.buf.length, none⟩, w') ∧ w'.Taking ∧ w'.capacity = w.capacity ∧
      Writer.output w'.impl ++ w'.buf = Writer.output w.impl ++ w.buf := by
  obtain ⟨⟨res, s⟩, hrun, hres, hs, hend⟩ := Loop.run_total
    (fun s => Direct.Written w.buf ⟨w.impl, 0⟩ s ∧ s.total ≤ w.buf.length)
    (fun q : Option Result × Direct σ => q.1 = none ∧ Direct.Written w.buf ⟨w.impl, 0⟩ q.2 ∧
      q.2.total = w.buf.length)
    (fun s => w.buf.length - s.total) (fun s ⟨hs, hle⟩ => by
      by_cases hmore : s.total < w.buf.length
      · obtain ⟨s', hturn, hs', hlt, hend⟩ := flushTurn_written hs hmore
        exact .inl ⟨s', hturn, ⟨hs', hend⟩, by omega⟩
      · have hturn : flushTurn w.buf s = some (.done (none, s)) := by
          rw [flushTurn, if_neg hmore]
        exact .inr ⟨(none, s), hturn, rfl, hs, Nat.le_antisymm hle (Nat.not_lt.1 hmore)⟩)
    ⟨⟨hw.taking, rfl⟩, Nat.zero_le _⟩
    (n := Writer.fuel w.impl + w.buf.length + 1) (by dsimp only; omega)
  dsimp only at hres hs hend
  subst hres
  refine ⟨{ w with impl := s.impl, buf := [] }, ?_,
    ⟨hs.taking, hw.capacity_pos, Nat.zero_le _⟩, rfl, ?_⟩
  · rw [flush, hrun, ← hend]
    rfl
  · have hout := hs.output_append
    rwa [hend, List.drop_length] at hout

/-! ## What a call keeps -/

section Runs

variable {w : BufferedWriter Sink}

/-- A call keeps all bytes: what it is given fits in the buffer, or else the parent accepts the
    full buffer. -/
def Keeps (w : BufferedWriter Sink) (c : Call) : Prop :=
  w.capacity - w.buf.length < c.data.length → w.impl.Accepts w.capacity

instance (w : BufferedWriter Sink) (c : Call) : Decidable (w.Keeps c) :=
  inferInstanceAs (Decidable (_ → _))

/-- All calls of a run keep all bytes. -/
def KeepsAll : BufferedWriter Sink → List Call → Prop
  | _, [] => True
  | w, c :: calls => w.Keeps c ∧ ∀ res w', w.call c = some (res, w') → w'.KeepsAll calls

/-- A write puts its data behind the bytes received and buffered, if it keeps all bytes, and else
    leaves fewer. -/
theorem write_taking (hw : w.Taking) (data : Bytes) :
    ∃ w', w.write data = some (⟨data.length, none⟩, w') ∧ w'.Taking ∧
      w'.capacity = w.capacity ∧
      (w.Keeps (.write data) →
        w'.impl.received ++ w'.buf = w.impl.received ++ w.buf ++ data) ∧
      (¬w.Keeps (.write data) →
        (w'.impl.received ++ w'.buf).length < (w.impl.received ++ w.buf ++ data).length) := by
  rcases Nat.lt_or_ge (w.capacity - w.buf.length) data.length with hroom | hroom
  · obtain ⟨hfull, hwrite⟩ := write_of_full hw.fits rfl hroom
    set topped := w.buf ++ data.take (w.capacity - w.buf.length) with htopped
    obtain ⟨n, impl, hsink, himpl, -⟩ := TakingWriter.write_taking topped hw.taking
    obtain ⟨hn, hout⟩ : n ≤ _ ∧ _ := LawfulWriter.accepts hsink
    obtain ⟨w', hrest, hw', hcap, hdata⟩ := writeRest_taking
      (w := { w with impl, buf := topped.drop n })
      ⟨himpl, hw.capacity_pos, by simp only [List.length_drop]; omega⟩ hroom
    simp only [Sink.writer_output] at hdata hout
    have hkeeps : w.Keeps (.write data) ↔ n = w.capacity := by
      rw [Keeps, ← hfull, Sink.accepts_length_iff hsink, hfull]
      exact ⟨fun h => h hroom, fun h _ => h⟩
    rw [hwrite, flushAvailable_eq (w := { w with buf := topped }) hsink]
    refine ⟨w', hrest, hw', hcap, fun h => ?_, fun h => ?_⟩
    · rw [hdata, hout, List.take_of_length_le (by rw [hfull, hkeeps.1 h]), htopped,
        List.append_assoc, List.append_assoc, List.take_append_drop, List.append_assoc]
    · have hshort : n < w.capacity := lt_of_le_of_ne (hfull ▸ hn) (mt hkeeps.2 h)
      have hfits := hw.fits
      rw [hdata, hout]
      simp only [List.length_append, List.length_take, List.length_drop]
      omega
  · have hkeeps : w.Keeps (.write data) := fun hlt => absurd hlt (Nat.not_lt.2 hroom)
    refine ⟨_, write_of_fits hw.fits hroom, ⟨hw.taking, hw.capacity_pos, ?_⟩, rfl, fun _ => ?_,
      absurd hkeeps⟩
    · have hfits := hw.fits
      dsimp only
      rw [List.length_append]
      omega
    · rw [List.append_assoc]

/-- The same of a call. -/
theorem call_taking (hw : w.Taking) (c : Call) :
    ∃ res w', w.call c = some (res, w') ∧ c.Full res ∧ w'.Taking ∧ w'.capacity = w.capacity ∧
      (w.Keeps c → w'.impl.received ++ w'.buf = w.impl.received ++ w.buf ++ c.data) ∧
      (¬w.Keeps c →
        (w'.impl.received ++ w'.buf).length < (w.impl.received ++ w.buf ++ c.data).length) := by
  cases c with
  | write data =>
    obtain ⟨w', hwrite, hw', hcap, hkeeps, hlost⟩ := write_taking hw data
    exact ⟨_, w', hwrite, rfl, hw', hcap, hkeeps, hlost⟩
  | flush =>
    obtain ⟨w', hflush, hw', hcap, hdata⟩ := flush_taking hw
    refine ⟨_, w', hflush, rfl, hw', hcap, fun _ => ?_, fun h => ?_⟩
    · rw [Call.data, List.append_nil]
      exact hdata
    · exact absurd (absurd · (Nat.not_lt_zero _)) h

/-- A run comes back without an error. What is received and buffered in it is the data written, if
    all its calls keep all bytes, and is shorter else. -/
theorem runCalls_taking (hw : w.Taking) (calls : List Call) :
    ∃ results w', w.runCalls calls = some (results, w') ∧ List.Forall₂ Call.Full calls results ∧
      (w.KeepsAll calls → w'.impl.received ++ w'.buf =
        w.impl.received ++ w.buf ++ calls.flatMap Call.data) ∧
      (¬w.KeepsAll calls → (w'.impl.received ++ w'.buf).length <
        (w.impl.received ++ w.buf ++ calls.flatMap Call.data).length) := by
  induction calls generalizing w with
  | nil =>
    refine ⟨[], w, rfl, .nil, fun _ => by simp, fun h => absurd ?_ h⟩
    trivial
  | cons c calls ih =>
    obtain ⟨res, w₁, hcall, hfull, hw₁, -, hkeeps, hlost⟩ := call_taking hw c
    obtain ⟨results, w₂, hrun, hfulls, hkeeps', hlost'⟩ := ih hw₁
    have hiff : w.KeepsAll (c :: calls) ↔ w.Keeps c ∧ w₁.KeepsAll calls := by
      rw [KeepsAll, hcall]
      simp
    refine ⟨res :: results, w₂, by simp [runCalls, hcall, hrun], .cons hfull hfulls, fun h => ?_,
      fun h => ?_⟩
    · obtain ⟨hc, hcalls⟩ := hiff.1 h
      rw [hkeeps' hcalls, hkeeps hc, List.flatMap_cons, List.append_assoc _ c.data]
    · -- bytes lost by either part are missing at the end: neither part adds more than its data
      have hle : (w₁.impl.received ++ w₁.buf).length ≤
          (w.impl.received ++ w.buf ++ c.data).length := by
        by_cases hc : w.Keeps c
        · rw [hkeeps hc]
        · exact Nat.le_of_lt (hlost hc)
      have hle' : (w₂.impl.received ++ w₂.buf).length ≤
          (w₁.impl.received ++ w₁.buf ++ calls.flatMap Call.data).length := by
        by_cases hc : w₁.KeepsAll calls
        · rw [hkeeps' hc]
        · exact Nat.le_of_lt (hlost' hc)
      rw [hiff, not_and_or] at h
      rw [List.flatMap_cons]
      simp only [List.length_append] at hle hle' hlost hlost' ⊢
      rcases h with h | h
      · have := hlost h
        omega
      · have := hlost' h
        omega

end Runs

/-- In every run of writes and flushes on a parent that accepts at least one byte of each write:
    what the parent has received and the buffer make up the data written if and only if every
    write that does not fit in the buffer finds the parent accepting the full buffer. -/
theorem runCalls_received_append_buf_iff (capacity : ℕ) (hcap : 0 < capacity) (parent : Sink)
    (hparent : parent.Taking) (calls : List Call) :
    ∃ results w, (new parent capacity).runCalls calls = some (results, w) ∧
      List.Forall₂ Call.Full calls results ∧
      (w.impl.received ++ w.buf = parent.received ++ calls.flatMap Call.data ↔
        (new parent capacity).KeepsAll calls) := by
  have hnew : (new parent capacity).Taking := ⟨hparent, hcap, Nat.zero_le _⟩
  obtain ⟨results, w, hrun, hfull, hkeeps, hlost⟩ := runCalls_taking hnew calls
  simp only [new, List.append_nil] at hkeeps hlost
  refine ⟨results, w, hrun, hfull, fun h => ?_, hkeeps⟩
  by_contra hnot
  exact absurd (hlost hnot) (h ▸ lt_irrefl _)

/-- A capacity of 4, on a parent that accepts the full buffer, then one byte of each write. -/
theorem runCalls_received_append_buf_iff_short :
    ∃ results w, (new (Sink.ofCounts [4, 1, 1, 1, 1]) 4).runCalls
        [.write [1, 2], .write [3, 4, 5, 6, 7, 8, 9, 10], .flush] = some (results, w) ∧
      w.impl.received ++ w.buf = [1, 2, 3, 4, 5, 6, 7, 8, 9, 10] := by
  obtain ⟨results, w, hrun, -, hiff⟩ := runCalls_received_append_buf_iff 4 (by decide)
    (Sink.ofCounts [4, 1, 1, 1, 1]) (by decide)
    [.write [1, 2], .write [3, 4, 5, 6, 7, 8, 9, 10], .flush]
  refine ⟨results, w, hrun, hiff.2 ⟨by decide, fun _ _ h => ?_⟩⟩
  cases h
  refine ⟨by decide, fun _ _ h => ?_⟩
  cases h
  exact ⟨by decide, fun _ _ _ => trivial⟩

/-- A capacity of 4, on a parent that accepts one byte of the full buffer: the other three are
    lost. -/
theorem runCalls_loses_bytes :
    (Sink.ofCounts [1]).Taking ∧
      (new (Sink.ofCounts [1]) 4).runCalls [.write [1, 2, 3, 4, 5]] =
        some ([⟨5, none⟩], ⟨⟨[1], [[1, 2, 3, 4]], []⟩, [5], 4⟩) ∧
      ([1] ++ [5] : Bytes) ≠ [Call.write [1, 2, 3, 4, 5]].flatMap Call.data := by
  decide

end Cppnet.Io.BufferedWriter
