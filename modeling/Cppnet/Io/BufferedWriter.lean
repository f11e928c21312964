import Cppnet.Io.Basic
import Cppnet.Lib.Loop

/-!
# `buffered_writer`

`io/buffered_writer.cpp`: a writer gathering its data in `buf`, up to
`capacity` bytes, to write it to its parent in pieces. A write

* tops up the buffer (`topUp`), which may be all there is to do;
* else writes the full buffer to the parent (`flushAvailable`), then writes the
  data straight to the parent, in pieces of `capacity` bytes, for as long as more
  than that is left (`directTurn`), and buffers the rest (`writeRest`).

`flush` writes what is in the buffer. On a parent that accepts every write in
full, what the parent has received, followed by the buffer, is what was written
(`runCalls_received_append_buf`), and `write` itself only makes writes of one capacity
(`write_accepting`).
-/

namespace Cppnet.Io

open Lib

/-- `buffered_writer`, on a parent with the states `σ`. The capacity of the
    vector `buf` is that it is constructed with. -/
structure BufferedWriter (σ : Type*) where
  impl : σ
  buf : Bytes
  capacity : ℕ
  deriving DecidableEq, Repr

namespace BufferedWriter

variable {σ : Type*}

/-- The constructor: an empty buffer of capacity `bufsize`. -/
def new (impl : σ) (bufsize : ℕ) : BufferedWriter σ := ⟨impl, [], bufsize⟩

/-- The default `bufsize` of the constructor. -/
def defaultBufsize : ℕ := 1024

section Model

variable [Writer σ Byte ErrorCondition]

/-- `flush_available`: one write of the buffer, keeping what was not accepted. -/
def flushAvailable (w : BufferedWriter σ) : Option (Result × BufferedWriter σ) := do
  let (res, impl) ← Writer.write w.impl w.buf
  if res.count < w.buf.length then
    let leftover := w.buf.length - res.count
    some (res, { w with
      impl, buf := resize 0 (overwrite w.buf 0 (w.buf.drop res.count)) leftover })
  else some (res, { w with impl, buf := [] })

/-- The beginning of `write`: what fits of the data is added to the buffer. Gives
    the number of bytes added. -/
def topUp (w : BufferedWriter σ) (data : Bytes) : ℕ × BufferedWriter σ :=
  if w.buf.length < w.capacity then
    let available := min (w.capacity - w.buf.length) data.length
    let buf := resize 0 w.buf (w.buf.length + available)
    (available, { w with buf := overwrite buf w.buf.length (data.take available) })
  else (0, w)

/-- The state of the loop in `write` that bypasses the buffer. -/
structure Direct (σ : Type*) where
  impl : σ
  total : ℕ

/-- One turn of the loop in `write` that bypasses the buffer. It leaves the loop
    with the result of `write` on an error, and with `none` otherwise. -/
def directTurn (capacity : ℕ) (data : Bytes) (s : Direct σ) :
    Option (Turn (Direct σ) (Option Result × Direct σ)) :=
  if data.length - s.total > capacity then do
    let (res, impl) ← Writer.write s.impl (subspan data s.total capacity)
    if res.err.isSome then
      some (.done (some ⟨s.total + res.count, res.err⟩, ⟨impl, s.total + res.count⟩))
    else some (.next ⟨impl, s.total + res.count⟩)
  else some (.done (none, s))

/-- The end of `write`, from `total` on: the writes that bypass the buffer, then
    the rest of the data put in the buffer. -/
def writeRest (w : BufferedWriter σ) (total : ℕ) (data : Bytes) :
    Option (Result × BufferedWriter σ) := do
  let (res, s) ← Loop.run (directTurn w.capacity data) (Writer.fuel w.impl + data.length + 1)
    ⟨w.impl, total⟩
  let w := { w with impl := s.impl }
  match res with
  | some res => some (res, w)
  | none =>
    let leftover := data.length - s.total
    if leftover > 0 then
      let buf := overwrite (resize 0 w.buf leftover) 0 (subspan data s.total leftover)
      some (⟨s.total + leftover, none⟩, { w with buf })
    else some (⟨s.total, none⟩, w)

/-- `write`. -/
def write (w : BufferedWriter σ) (data : Bytes) : Option (Result × BufferedWriter σ) :=
  if data = [] then some (⟨0, none⟩, w)
  else
    let (total, w) := w.topUp data
    if total = data.length then some (⟨data.length, none⟩, w)
    else if w.buf.length = w.capacity then do
      let (res, w) ← w.flushAvailable
      if res.err.isSome then some (res, w) else w.writeRest total data
    else w.writeRest total data

/-- One turn of the loop in `flush`. It leaves the loop with the result of `flush`
    on an error, and with `none` otherwise. -/
def flushTurn (buf : Bytes) (s : Direct σ) :
    Option (Turn (Direct σ) (Option Result × Direct σ)) :=
  if s.total < buf.length then do
    let (res, impl) ← Writer.write s.impl (buf.drop s.total)
    if res.err.isSome then
      some (.done (some ⟨s.total + res.count, res.err⟩, ⟨impl, s.total + res.count⟩))
    else some (.next ⟨impl, s.total + res.count⟩)
  else some (.done (none, s))

/-- `flush`. -/
def flush (w : BufferedWriter σ) : Option (Result × BufferedWriter σ) := do
  let (res, s) ← Loop.run (flushTurn w.buf) (Writer.fuel w.impl + w.buf.length + 1) ⟨w.impl, 0⟩
  match res with
  | some res => some (res, { w with impl := s.impl })
  | none => some (⟨s.total, none⟩, { w with impl := s.impl, buf := [] })

instance : Writer (BufferedWriter σ) Byte ErrorCondition where
  write := write
  output w := Writer.output w.impl ++ w.buf
  fuel w := Writer.fuel w.impl

end Model

/-! ## Parents that accept every write in full -/

section Accepting

variable [Writer σ Byte ErrorCondition] [AcceptingWriter σ] {w : BufferedWriter σ}

/-- A buffered writer on an accepting parent, with room for a byte. -/
structure Accepting (w : BufferedWriter σ) : Prop where
  accepting : AcceptingWriter.Accepting w.impl
  capacity_pos : 0 < w.capacity
  fits : w.buf.length ≤ w.capacity

omit [Writer σ Byte ErrorCondition] [AcceptingWriter σ] in
/-- Topping up the buffer appends the front of the data to it, as it fits. -/
theorem topUp_eq (hw : w.buf.length ≤ w.capacity) (data : Bytes) :
    w.topUp data = (min (w.capacity - w.buf.length) data.length,
      { w with buf := w.buf ++ data.take (min (w.capacity - w.buf.length) data.length) }) := by
  rw [topUp]
  split
  · have hbuf := overwrite_resize_length 0 w.buf
      (data.take (min (w.capacity - w.buf.length) data.length))
    rw [List.length_take_of_le (min_le_right _ _)] at hbuf
    dsimp only
    rw [hbuf]
  · next h =>
    have h0 : w.capacity - w.buf.length = 0 := by omega
    simp [h0]

omit [AcceptingWriter σ] in
/-- A write of data there is room for. -/
theorem write_of_fits (hw : w.buf.length ≤ w.capacity) {data : Bytes}
    (hdata : data.length ≤ w.capacity - w.buf.length) :
    w.write data = some (⟨data.length, none⟩, { w with buf := w.buf ++ data }) := by
  rw [write]
  split
  · next h => rw [h, List.append_nil, List.length_nil]
  · rw [topUp_eq hw, min_eq_right hdata]
    dsimp only
    rw [if_pos rfl, List.take_length]

omit [AcceptingWriter σ] in
/-- A write of more data than there is room for writes the full buffer to the parent, and goes on
    from there. -/
theorem write_of_full (hw : w.buf.length ≤ w.capacity) {data : Bytes} {n : ℕ}
    (hn : n = w.capacity - w.buf.length) (hdata : n < data.length) :
    (w.buf ++ data.take n).length = w.capacity ∧
      w.write data = ({ w with buf := w.buf ++ data.take n }).flushAvailable.bind fun q =>
        if q.1.err.isSome then some q else q.2.writeRest n data := by
  have hfull : (w.buf ++ data.take n).length = w.capacity := by
    rw [List.length_append, List.length_take_of_le hdata.le]
    omega
  refine ⟨hfull, ?_⟩
  rw [write, if_neg (List.ne_nil_of_length_pos (Nat.zero_lt_of_lt hdata)), topUp_eq hw, ← hn,
    min_eq_left hdata.le]
  dsimp only
  rw [if_neg hdata.ne, if_pos hfull]
  rfl

/-- Flushing the buffer once empties it. -/
theorem flushAvailable_accepting (hw : AcceptingWriter.Accepting w.impl) :
    ∃ impl, w.flushAvailable = some (⟨w.buf.length, none⟩, { w with impl, buf := [] }) ∧
      AcceptingWriter.Accepting impl ∧ Wrote w.impl [w.buf] impl := by
  obtain ⟨impl, hwrite, hacc⟩ := AcceptingWriter.write_accepting w.buf hw
  refine ⟨impl, ?_, hacc, .single hwrite⟩
  rw [flushAvailable, hwrite]
  simp

/-- A state `s` the loop that bypasses the buffer may reach from `s₀`, by the writes `ds`: each of
    one capacity, and followed by the data from there on, the data from `s₀` on. -/
structure Direct.Reached (capacity : ℕ) (data : Bytes) (s₀ s : Direct σ) (ds : List Bytes) :
    Prop where
  accepting : AcceptingWriter.Accepting s.impl
  total_le : s.total ≤ data.length
  wrote : Wrote s₀.impl ds s.impl
  length_eq : ∀ d ∈ ds, d.length = capacity
  flatten_append : ds.flatten ++ data.drop s.total = data.drop s₀.total

/-- One more write. -/
theorem directTurn_reached {capacity : ℕ} {data : Bytes} {s₀ s : Direct σ} {ds : List Bytes}
    (h : s₀.Reached capacity data s ds) (hcap : 0 < capacity)
    (hmore : data.length - s.total > capacity) :
    ∃ s' ds', directTurn capacity data s = some (.next s') ∧ s₀.Reached capacity data s' ds' ∧
      data.length - s'.total < data.length - s.total := by
  have hspan : (subspan data s.total capacity).length = capacity := length_subspan (by omega)
  obtain ⟨impl, hwrite, hacc⟩ :=
    AcceptingWriter.write_accepting (subspan data s.total capacity) h.accepting
  refine ⟨⟨impl, s.total + capacity⟩, ds ++ [subspan data s.total capacity], ?_,
    ⟨hacc, ?_, h.wrote.trans (.single hwrite), ?_, ?_⟩, ?_⟩
  · rw [directTurn, if_pos hmore, hwrite, hspan]
    rfl
  · dsimp only
    omega
  · intro d hd
    rcases List.mem_append.1 hd with hd | hd
    · exact h.length_eq d hd
    · rw [List.mem_singleton.1 hd, hspan]
  · rw [List.flatten_append, List.flatten_singleton, List.append_assoc, subspan,
      ← List.drop_drop, List.take_append_drop, h.flatten_append]
  · dsimp only
    omega

/-- The loop that bypasses the buffer writes the data in pieces of one
    capacity, until no more than that is left. -/
theorem directTurn_accepting (s₀ : Direct σ) {capacity : ℕ} {data : Bytes} {n : ℕ}
    (himpl : AcceptingWriter.Accepting s₀.impl) (hcap : 0 < capacity)
    (htotal : s₀.total ≤ data.length) (hn : data.length < n) :
    ∃ s ds, Loop.run (directTurn capacity data) n s₀ = some (none, s) ∧
      s₀.Reached capacity data s ds ∧ data.length - s.total ≤ capacity := by
  have hstart : s₀.Reached capacity data s₀ [] :=
    ⟨himpl, htotal, .nil _, List.forall_mem_nil _, rfl⟩
  obtain ⟨⟨res, s⟩, hrun, hres, ⟨ds, h⟩, hleft⟩ := Loop.run_total
    (fun s => ∃ ds, s₀.Reached capacity data s ds)
    (fun q : Option Result × Direct σ => q.1 = none ∧ (∃ ds, s₀.Reached capacity data q.2 ds) ∧
      data.length - q.2.total ≤ capacity)
    (fun s => data.length - s.total) (fun s hs => by
      by_cases hmore : data.length - s.total > capacity
      · obtain ⟨ds, h⟩ := hs
        obtain ⟨s', ds', hturn, h', hlt⟩ := directTurn_reached h hcap hmore
        exact .inl ⟨s', hturn, ⟨ds', h'⟩, hlt⟩
      · exact .inr ⟨_, by rw [directTurn, if_neg hmore], rfl, hs, Nat.not_lt.1 hmore⟩)
    ⟨[], hstart⟩ (Nat.lt_of_le_of_lt (Nat.sub_le _ _) hn)
  exact ⟨s, ds, hres ▸ hrun, h, hleft⟩

/-- The end of a write, from an empty buffer: the rest of the data is written in
    pieces of one capacity, and what is left of it is buffered. -/
theorem writeRest_accepting (hw : w.Accepting) (hbuf : w.buf = []) {total : ℕ} {data : Bytes}
    (htotal : total ≤ data.length) :
    ∃ w' ds, w.writeRest total data = some (⟨data.length, none⟩, w') ∧ w'.Accepting ∧
      w'.capacity = w.capacity ∧ Wrote w.impl ds w'.impl ∧ (∀ d ∈ ds, d.length = w.capacity) ∧
      ds.flatten ++ w'.buf = data.drop total := by
  obtain ⟨s, ds, hrun, ⟨hacc, hle, hwrote, hlen, hdata⟩, hleft⟩ :=
    directTurn_accepting ⟨w.impl, total⟩ (n := Writer.fuel w.impl + data.length + 1)
      hw.accepting hw.capacity_pos htotal (by omega)
  have hcopy : overwrite (resize 0 w.buf (data.length - s.total)) 0
      (subspan data s.total (data.length - s.total)) = data.drop s.total := by
    rw [subspan_rest, ← List.length_drop, overwrite_resize_zero]
  have hrest : w.writeRest total data =
      some (⟨data.length, none⟩, { w with impl := s.impl, buf := data.drop s.total }) := by
    rw [writeRest, hrun, Option.bind_eq_bind, Option.bind_some]
    dsimp only
    split
    · rw [hcopy, Nat.add_sub_cancel' hle]
    · next h =>
      have hend : s.total = data.length := by omega
      rw [hend, List.drop_length, hbuf]
  refine ⟨_, ds, hrest, ⟨hacc, hw.capacity_pos, ?_⟩, rfl, hwrote, hlen, hdata⟩
  rw [List.length_drop]
  exact hleft

/-- A write is taken in full: the writes made to the parent, each of one capacity,
    followed by the new buffer, are the old buffer followed by the data. -/
theorem write_accepting (hw : w.Accepting) (data : Bytes) :
    ∃ w' ds, w.write data = some (⟨data.length, none⟩, w') ∧ w'.Accepting ∧
      w'.capacity = w.capacity ∧ Wrote w.impl ds w'.impl ∧ (∀ d ∈ ds, d.length = w.capacity) ∧
      ds.flatten ++ w'.buf = w.buf ++ data := by
  rcases Nat.lt_or_ge (w.capacity - w.buf.length) data.length with hroom | hroom
  · obtain ⟨hfull, hwrite⟩ := write_of_full hw.fits rfl hroom
    set topped := w.buf ++ data.take (w.capacity - w.buf.length) with htopped
    obtain ⟨impl, hflush, hacc, hwrote⟩ :=
      flushAvailable_accepting (w := { w with buf := topped }) hw.accepting
    obtain ⟨w', ds, hrest, hw', hcap, hwrote', hds, hdata⟩ :=
      writeRest_accepting (w := { w with impl, buf := [] }) ⟨hacc, hw.capacity_pos, Nat.zero_le _⟩
        rfl hroom.le
    rw [hwrite, hflush]
    refine ⟨w', [topped] ++ ds, hrest, hw', hcap, hwrote.trans hwrote', fun d hd => ?_, ?_⟩
    · rcases List.mem_append.1 hd with hd | hd
      · rw [List.mem_singleton.1 hd, hfull]
      · exact hds d hd
    · rw [List.flatten_append, List.flatten_singleton, List.append_assoc, hdata, htopped,
        List.append_assoc, List.take_append_drop]
  · refine ⟨_, [], write_of_fits hw.fits hroom, ⟨hw.accepting, hw.capacity_pos, ?_⟩, rfl, .nil _,
      List.forall_mem_nil _, rfl⟩
    have hfits := hw.fits
    dsimp only
    rw [List.length_append]
    omega

/-- A flush writes the buffer, and empties it. -/
theorem flush_accepting (hw : w.Accepting) :
    ∃ w' ds, w.flush = some (⟨w.buf.length, none⟩, w') ∧ w'.Accepting ∧
      w'.capacity = w.capacity ∧ Wrote w.impl ds w'.impl ∧ ds.flatten = w.buf ∧ w'.buf = [] := by
  by_cases hbuf : w.buf = []
  · refine ⟨{ w with buf := [] }, [], ?_, ⟨hw.accepting, hw.capacity_pos, Nat.zero_le _⟩, rfl,
      .nil _, hbuf.symm, rfl⟩
    have hturn : flushTurn w.buf ⟨w.impl, 0⟩ = some (.done (none, ⟨w.impl, 0⟩)) := by
      simp [flushTurn, hbuf]
    rw [flush, Loop.run_succ_done hturn, hbuf]
    rfl
  · obtain ⟨impl, hwrite, hacc⟩ := AcceptingWriter.write_accepting w.buf hw.accepting
    refine ⟨{ w with impl, buf := [] }, [w.buf], ?_, ⟨hacc, hw.capacity_pos, Nat.zero_le _⟩, rfl,
      .single hwrite, by simp, rfl⟩
    have hpos := List.length_pos_iff.2 hbuf
    have hfirst : flushTurn w.buf ⟨w.impl, 0⟩ = some (.next ⟨impl, w.buf.length⟩) := by
      rw [flushTurn, if_pos hpos, List.drop_zero, hwrite]
      simp
    have hlast : flushTurn w.buf ⟨impl, w.buf.length⟩ =
        some (.done (none, ⟨impl, w.buf.length⟩)) := by
      simp [flushTurn]
    obtain ⟨n, hn⟩ : ∃ n, Writer.fuel w.impl + w.buf.length = n + 1 :=
      ⟨Writer.fuel w.impl + w.buf.length - 1, by omega⟩
    rw [flush, Loop.run_succ_next hfirst, hn, Loop.run_succ_done hlast]
    rfl

instance : AcceptingWriter (BufferedWriter σ) where
  Accepting := Accepting
  write_accepting data hw := by
    obtain ⟨w', ds, hwrite, hw', -⟩ := write_accepting hw data
    exact ⟨w', hwrite, hw'⟩

end Accepting

/-! ## Runs -/

/-- A call of a buffered writer: `write` of a span, or `flush`. -/
inductive Call
  | write (data : Bytes)
  | flush

/-- The data a call is given. -/
def Call.data : Call → Bytes
  | .write data => data
  | .flush => []

/-- The result of a call that took all its data. -/
def Call.Full : Call → Result → Prop
  | .write data, res => res = ⟨data.length, none⟩
  | .flush, res => res.err = none

section Runs

variable [Writer σ Byte ErrorCondition]

/-- One call. -/
def call (w : BufferedWriter σ) : Call → Option (Result × BufferedWriter σ)
  | .write data => w.write data
  | .flush => w.flush

/-- A sequence of calls. -/
def runCalls (w : BufferedWriter σ) : List Call → Option (List Result × BufferedWriter σ)
  | [] => some ([], w)
  | c :: calls => do
    let (res, w) ← w.call c
    let (results, w) ← w.runCalls calls
    some (res :: results, w)

variable [AcceptingWriter σ]

/-- A call takes all its data, behind what is in the buffer. -/
theorem call_accepting {w : BufferedWriter σ} (hw : w.Accepting) (c : Call) :
    ∃ res w' ds, w.call c = some (res, w') ∧ c.Full res ∧ w'.Accepting ∧
      w'.capacity = w.capacity ∧ Wrote w.impl ds w'.impl ∧
      ds.flatten ++ w'.buf = w.buf ++ c.data := by
  cases c with
  | write data =>
    obtain ⟨w', ds, hwrite, hw', hcap, hwrote, -, hdata⟩ := write_accepting hw data
    exact ⟨_, w', ds, hwrite, rfl, hw', hcap, hwrote, hdata⟩
  | flush =>
    obtain ⟨w', ds, hflush, hw', hcap, hwrote, hds, hbuf⟩ := flush_accepting hw
    exact ⟨_, w', ds, hflush, rfl, hw', hcap, hwrote, by rw [hds, hbuf]; rfl⟩

/-- A run takes all its data, behind what is in the buffer. -/
theorem runCalls_accepting {w : BufferedWriter σ} (hw : w.Accepting) (calls : List Call) :
    ∃ results w' ds, w.runCalls calls = some (results, w') ∧
      List.Forall₂ Call.Full calls results ∧ w'.Accepting ∧ w'.capacity = w.capacity ∧
      Wrote w.impl ds w'.impl ∧ ds.flatten ++ w'.buf = w.buf ++ calls.flatMap Call.data := by
  induction calls generalizing w with
  | nil => exact ⟨[], w, [], rfl, .nil, hw, rfl, .nil _, by simp⟩
  | cons c calls ih =>
    obtain ⟨res, w₁, ds₁, hcall, hfull, hw₁, hcap₁, hwrote₁, hdata₁⟩ := call_accepting hw c
    obtain ⟨results, w₂, ds₂, hrun, hfulls, hw₂, hcap₂, hwrote₂, hdata₂⟩ := ih hw₁
    refine ⟨res :: results, w₂, ds₁ ++ ds₂, ?_, .cons hfull hfulls, hw₂, hcap₂.trans hcap₁,
      hwrote₁.trans hwrote₂, ?_⟩
    · simp [runCalls, hcall, hrun]
    · rw [List.flatten_append, List.append_assoc, hdata₂, ← List.append_assoc, hdata₁,
        List.flatMap_cons, List.append_assoc]

end Runs

/-- In every run of writes and flushes on a parent that accepts every write in
    full, what the parent has received and the buffer make up the data written,
    the buffer keeps within its capacity, and every write counts all its data. At
    the state reached, a write makes writes of exactly one capacity to the parent,
    and after a flush the parent has received everything. -/
theorem runCalls_received_append_buf (capacity : ℕ) (hcap : 0 < capacity) (calls : List Call) :
    ∃ results w, (new Sink.empty capacity).runCalls calls = some (results, w) ∧
      w.impl.received ++ w.buf = calls.flatMap Call.data ∧ w.buf.length ≤ capacity ∧
      List.Forall₂ Call.Full calls results ∧
      (∀ data, ∃ w' ds, w.write data = some (⟨data.length, none⟩, w') ∧
        w'.impl.offered = w.impl.offered ++ ds ∧ ∀ d ∈ ds, d.length = capacity) ∧
      ∃ res w', w.flush = some (res, w') ∧ res.err = none ∧ w'.buf = [] ∧
        w'.impl.received = calls.flatMap Call.data := by
  have hnew : (new Sink.empty capacity).Accepting := ⟨rfl, hcap, Nat.zero_le _⟩
  obtain ⟨results, w, ds, hrun, hfull, hw, hwcap, hwrote, hdata⟩ := runCalls_accepting hnew calls
  change w.capacity = capacity at hwcap
  have hreceived : w.impl.received ++ w.buf = calls.flatMap Call.data := by
    rw [← Sink.writer_output, hwrote.output_eq]
    exact hdata
  refine ⟨results, w, hrun, hreceived, hwcap ▸ hw.fits, hfull, fun data => ?_, ?_⟩
  · obtain ⟨w', ds, hwrite, -, -, hwrote, hlen, -⟩ := write_accepting hw data
    exact ⟨w', ds, hwrite, Sink.offered_of_wrote hwrote, hwcap ▸ hlen⟩
  · obtain ⟨w', ds, hflush, -, -, hwrote, hds, hbuf⟩ := flush_accepting hw
    refine ⟨_, w', hflush, rfl, hbuf, ?_⟩
    rw [← Sink.writer_output, hwrote.output_eq, hds]
    exact hreceived

/-- A capacity of 4, and writes of 3, 3, 9 and 0 bytes. -/
theorem runCalls_received_append_buf_four :
    ∃ results w, (new Sink.empty 4).runCalls
        [.write [1, 2, 3], .write [4, 5, 6], .write [7, 8, 9, 10, 11, 12, 13, 14, 15], .write []] =
        some (results, w) ∧
      w.impl.received ++ w.buf = [1, 2, 3, 4, 5, 6, 7, 8, 9, 10, 11, 12, 13, 14, 15] := by
  obtain ⟨results, w, hrun, hdata, -⟩ := runCalls_received_append_buf 4 (by decide)
    [.write [1, 2, 3], .write [4, 5, 6], .write [7, 8, 9, 10, 11, 12, 13, 14, 15], .write []]
  exact ⟨results, w, hrun, hdata⟩

end BufferedWriter

end Cppnet.Io
