import Cppnet.Bytes
import Cppnet.Io.Basic
import Cppnet.Lib.Loop

/-!
# `chunked_writer`

`http/chunked_writer.cpp`: a writer of a body in chunks. A write makes a chunk of its data:
the size in decimal, an end of line, the data, and an end of line (`write_accepting`).

The size of a chunk is at most what fits in eight digits. The data of a larger write is cut
in chunks of that size, for as long as there is data left: every chunk is as large as the
first one, whatever is left, and the span of the last one goes past the end of the data,
which is undefined, unless the chunks happen to come out even (`write_chunks_iff`).
-/

namespace Cppnet.Http

open Lib Io

/-- `chunked_writer`, on a parent with the states `ω`. -/
structure ChunkedWriter (ω : Type*) where
  parent : ω
  deriving DecidableEq, Repr

namespace ChunkedWriter

variable {ω : Type*}

/-- The constructor. -/
def new (parent : ω) : ChunkedWriter ω := ⟨parent⟩

/-- `max_decimal_for_length_digits`. -/
def maxDecimalForLengthDigits : ℕ → ℕ
  | 0 => 0
  | size + 1 => maxDecimalForLengthDigits size * 10 + 9

/-- The largest size of a chunk: `chunk_size_buf` has eight characters. -/
def maxChunkSize : ℕ := maxDecimalForLengthDigits 8

/-- The state of the loop of `write`. -/
structure State (ω : Type*) where
  parent : ω
  amountWritten : ℕ

section Model

variable [Writer ω Byte ErrorCondition]

/-- One turn of the loop of `write`. -/
def writeTurn (data : Bytes) (s : State ω) :
    Option (Turn (State ω) (Result × ChunkedWriter ω)) :=
  if s.amountWritten < data.length then do
    let amountToWrite := min maxChunkSize data.length
    -- the chunk length
    let (res, parent) ← Writer.write s.parent (toString amountToWrite)
    if res.err.isSome then some (.done (⟨s.amountWritten, res.err⟩, ⟨parent⟩))
    else
      let (res, parent) ← Writer.write parent crlf
      if res.err.isSome then some (.done (⟨s.amountWritten, res.err⟩, ⟨parent⟩))
      -- a span past the end of the data is undefined
      else if data.length < s.amountWritten + amountToWrite then none
      else
        let (res, parent) ← Writer.write parent (subspan data s.amountWritten amountToWrite)
        let amountWritten := s.amountWritten + res.count
        if res.err.isSome then some (.done (⟨amountWritten, res.err⟩, ⟨parent⟩))
        else
          -- end of chunk
          let (res, parent) ← Writer.write parent crlf
          if res.err.isSome then some (.done (⟨amountWritten, res.err⟩, ⟨parent⟩))
          else some (.next ⟨parent, amountWritten⟩)
  else some (.done (⟨s.amountWritten, none⟩, ⟨s.parent⟩))

/-- `write`. -/
def write (w : ChunkedWriter ω) (data : Bytes) : Option (Result × ChunkedWriter ω) :=
  Loop.run (writeTurn data) (Writer.fuel w.parent + data.length + 1) ⟨w.parent, 0⟩

/-- A sequence of writes. -/
def writes (w : ChunkedWriter ω) : List Bytes → Option (List Result × ChunkedWriter ω)
  | [] => some ([], w)
  | data :: datas => do
    let (res, w) ← w.write data
    let (results, w) ← w.writes datas
    some (res :: results, w)

end Model

/-- The writes to the parent that make up the chunk of a write. -/
def chunkParts (data : Bytes) : List Bytes :=
  if data = [] then [] else [toString data.length, crlf, data, crlf]

section Accepting

variable [Writer ω Byte ErrorCondition] [AcceptingWriter ω]

omit [AcceptingWriter ω] in
/-- The loop of `write` is left when all data is written. -/
theorem writeTurn_end (data : Bytes) (parent : ω) :
    writeTurn data ⟨parent, data.length⟩ = some (.done (⟨data.length, none⟩, ⟨parent⟩)) := by
  rw [writeTurn, if_neg (lt_irrefl _)]

/-- One more turn of `write` makes a chunk as large as the first one, if as much data is left, and
    is undefined otherwise. -/
theorem writeTurn_accepting {data : Bytes} {s : State ω} (hs : AcceptingWriter.Accepting s.parent)
    (hmore : s.amountWritten < data.length) {size : ℕ} (hsize : size = min maxChunkSize data.length) :
    (s.amountWritten + size ≤ data.length → ∃ parent,
      writeTurn data s = some (.next ⟨parent, s.amountWritten + size⟩) ∧
      AcceptingWriter.Accepting parent ∧
      Wrote s.parent (chunkParts (subspan data s.amountWritten size)) parent) ∧
    (data.length < s.amountWritten + size → writeTurn data s = none) := by
  obtain ⟨p₁, h₁, hp₁⟩ := AcceptingWriter.write_accepting (toString size) hs
  obtain ⟨p₂, h₂, hp₂⟩ := AcceptingWriter.write_accepting crlf hp₁
  refine ⟨fun hle => ?_, fun hlt => ?_⟩
  · obtain ⟨p₃, h₃, hp₃⟩ :=
      AcceptingWriter.write_accepting (subspan data s.amountWritten size) hp₂
    obtain ⟨p₄, h₄, hp₄⟩ := AcceptingWriter.write_accepting crlf hp₃
    have hlen : (subspan data s.amountWritten size).length = size := length_subspan hle
    have hpos : 0 < size := hsize ▸ lt_min (by decide) (by omega)
    refine ⟨p₄, ?_, hp₄, ?_⟩
    · rw [writeTurn, if_pos hmore, ← hsize]
      simp [h₁, h₂, h₃, h₄, hlen, not_lt.2 hle]
    · rw [chunkParts, if_neg (List.ne_nil_of_length_pos (hpos.trans_eq hlen.symm)), hlen]
      exact .cons h₁ (.cons h₂ (.cons h₃ (.single h₄)))
  · rw [writeTurn, if_pos hmore, ← hsize]
    simp [h₁, h₂, hlt]

/-- On a parent that accepts every write in full, a write makes one chunk of its data, or none if
    there is none. -/
theorem write_accepting {w : ChunkedWriter ω} (hw : AcceptingWriter.Accepting w.parent)
    {data : Bytes} (hdata : data.length ≤ maxChunkSize) :
    ∃ w', w.write data = some (⟨data.length, none⟩, w') ∧
      AcceptingWriter.Accepting w'.parent ∧ Wrote w.parent (chunkParts data) w'.parent := by
  by_cases hnil : data = []
  · subst hnil
    exact ⟨w, Loop.run_succ_done (writeTurn_end [] w.parent), hw, .nil _⟩
  have hpos := List.length_pos_iff.2 hnil
  obtain ⟨parent, hturn, hparent, hwrote⟩ := (writeTurn_accepting (s := ⟨w.parent, 0⟩) hw hpos
    (min_eq_right hdata).symm).1 (Nat.zero_add _).le
  refine ⟨⟨parent⟩, ?_, hparent, ?_⟩
  · obtain ⟨n, hn⟩ : ∃ n, Writer.fuel w.parent + data.length = n + 1 :=
      ⟨Writer.fuel w.parent + data.length - 1, by omega⟩
    rw [Nat.zero_add] at hturn
    rw [write, Loop.run_succ_next hturn, hn, Loop.run_succ_done (writeTurn_end data parent)]
  · rwa [subspan, List.drop_zero, List.take_length] at hwrote

/-- A sequence of writes makes one chunk of each that has data. -/
theorem writes_accepting {w : ChunkedWriter ω} (hw : AcceptingWriter.Accepting w.parent)
    {datas : List Bytes} (hdatas : ∀ data ∈ datas, data.length ≤ maxChunkSize) :
    ∃ results w', w.writes datas = some (results, w') ∧
      results = datas.map (⟨·.length, none⟩) ∧ Wrote w.parent (datas.flatMap chunkParts) w'.parent := by
  induction datas generalizing w with
  | nil => exact ⟨[], w, rfl, rfl, .nil _⟩
  | cons data datas ih =>
    rw [List.forall_mem_cons] at hdatas
    obtain ⟨w₁, hwrite, hw₁, hwrote₁⟩ := write_accepting hw hdatas.1
    obtain ⟨results, w', hwrites, rfl, hwrote⟩ := ih hw₁ hdatas.2
    exact ⟨_, w', by simp [writes, hwrite, hwrites], rfl, hwrote₁.trans hwrote⟩

/-- A state the loop of `write` gets to from `parent`: the data up to there is written in `chunks`,
    all of one size. -/
structure State.Cut (parent : ω) (data : Bytes) (size : ℕ) (s : State ω) (chunks : List Bytes) :
    Prop where
  accepting : AcceptingWriter.Accepting s.parent
  written_le : s.amountWritten ≤ data.length
  dvd_written : size ∣ s.amountWritten
  length_eq : ∀ c ∈ chunks, c.length = size ∧ 0 < size
  flatten_eq : chunks.flatten = data.take s.amountWritten
  wrote : Wrote parent (chunks.flatMap chunkParts) s.parent

/-- One more chunk. -/
theorem State.Cut.next {parent p : ω} {data : Bytes} {size : ℕ} {s : State ω} {chunks : List Bytes}
    (h : s.Cut parent data size chunks) (hpos : 0 < size)
    (hle : s.amountWritten + size ≤ data.length) (hp : AcceptingWriter.Accepting p)
    (hwrote : Wrote s.parent (chunkParts (subspan data s.amountWritten size)) p) :
    State.Cut parent data size ⟨p, s.amountWritten + size⟩
      (chunks ++ [subspan data s.amountWritten size]) where
  accepting := hp
  written_le := hle
  dvd_written := Nat.dvd_add h.dvd_written (Nat.dvd_refl size)
  length_eq c hc := by
    rcases List.mem_append.1 hc with hc | hc
    · exact h.length_eq c hc
    · rw [List.mem_singleton.1 hc]
      exact ⟨length_subspan hle, hpos⟩
  flatten_eq := by
    rw [List.flatten_append, List.flatten_singleton, h.flatten_eq, subspan, List.take_add]
  wrote := by
    rw [List.flatMap_append, List.flatMap_singleton]
    exact h.wrote.trans hwrote

/-- A write whose chunks come out even writes its data in chunks of one size. -/
theorem write_of_dvd {w : ChunkedWriter ω} (hw : AcceptingWriter.Accepting w.parent) {data : Bytes}
    {size : ℕ} (hsize : size = min maxChunkSize data.length) (hdvd : size ∣ data.length) :
    ∃ (chunks : List Bytes) (w' : ChunkedWriter ω), (∀ c ∈ chunks, c.length = size ∧ 0 < size) ∧
      chunks.flatten = data ∧
      w.write data = some (⟨data.length, none⟩, w') ∧
      Wrote w.parent (chunks.flatMap chunkParts) w'.parent := by
  obtain ⟨⟨_, w'⟩, hrun, rfl, chunks, h⟩ := Loop.run_total
    (fun s : State ω => ∃ chunks, s.Cut w.parent data size chunks)
    (fun q : Result × ChunkedWriter ω => q.1 = ⟨data.length, none⟩ ∧
      ∃ chunks, State.Cut w.parent data size ⟨q.2.parent, data.length⟩ chunks)
    (fun s => data.length - s.amountWritten) (fun s ⟨chunks, h⟩ => by
      by_cases hmore : s.amountWritten < data.length
      · -- what is written and the whole are multiples of the size, so that a chunk more fits
        have hle : s.amountWritten + size ≤ data.length := by
          have hleft := Nat.le_of_dvd (by omega) (Nat.dvd_sub hdvd h.dvd_written)
          omega
        have hpos : 0 < size := hsize ▸ lt_min (by decide) (by omega)
        obtain ⟨p, hturn, hp, hwrote⟩ := (writeTurn_accepting h.accepting hmore hsize).1 hle
        exact .inl ⟨_, hturn, ⟨_, h.next hpos hle hp hwrote⟩, by dsimp only; omega⟩
      · obtain ⟨parent, written⟩ := s
        obtain rfl : written = data.length := Nat.le_antisymm h.written_le (Nat.not_lt.1 hmore)
        exact .inr ⟨_, writeTurn_end data parent, rfl, chunks, h⟩)
    (n := Writer.fuel w.parent + data.length + 1) (s := ⟨w.parent, 0⟩)
    ⟨[], hw, Nat.zero_le _, Nat.dvd_zero size, List.forall_mem_nil _, rfl, .nil _⟩
    (by dsimp only; omega)
  refine ⟨chunks, w', h.length_eq, ?_, hrun, h.wrote⟩
  rw [h.flatten_eq, List.take_length]

/-- A write that comes back has written chunks that come out even. -/
theorem dvd_of_write {w w' : ChunkedWriter ω} (hw : AcceptingWriter.Accepting w.parent)
    {data : Bytes} {res : Result} (h : w.write data = some (res, w')) :
    min maxChunkSize data.length ∣ data.length := by
  refine (Loop.returns_of_run h).invariant
    (fun s : State ω => AcceptingWriter.Accepting s.parent ∧ s.amountWritten ≤ data.length ∧
      min maxChunkSize data.length ∣ s.amountWritten)
    (fun _ => min maxChunkSize data.length ∣ data.length) ?_ ?_ ⟨hw, Nat.zero_le _, Nat.dvd_zero _⟩
  · rintro s s' ⟨hs, -, hdvd⟩ hturn
    by_cases hmore : s.amountWritten < data.length
    · obtain ⟨hnext, hnone⟩ := writeTurn_accepting hs hmore rfl
      rcases Nat.lt_or_ge data.length (s.amountWritten + min maxChunkSize data.length) with hlt | hle
      · rw [hnone hlt] at hturn
        cases hturn
      · obtain ⟨p, hturn', hp, -⟩ := hnext hle
        rw [hturn', Option.some.injEq, Turn.next.injEq] at hturn
        subst hturn
        exact ⟨hp, hle, Nat.dvd_add hdvd (Nat.dvd_refl _)⟩
    · rw [writeTurn, if_neg hmore] at hturn
      cases hturn
  · rintro s r ⟨hs, hle, hdvd⟩ hturn
    by_cases hmore : s.amountWritten < data.length
    · obtain ⟨hnext, hnone⟩ := writeTurn_accepting hs hmore rfl
      rcases Nat.lt_or_ge data.length (s.amountWritten + min maxChunkSize data.length) with hlt | hle
      · rw [hnone hlt] at hturn
        cases hturn
      · obtain ⟨p, hturn', -⟩ := hnext hle
        rw [hturn'] at hturn
        cases hturn
    · rwa [Nat.le_antisymm hle (Nat.not_lt.1 hmore)] at hdvd

/-- The chunks of a write come out even. -/
theorem min_maxChunkSize_dvd_iff (n : ℕ) :
    min maxChunkSize n ∣ n ↔ n ≤ 99999999 ∨ 99999999 ∣ n := by
  have hmax : maxChunkSize = 99999999 := rfl
  rcases Nat.le_total n 99999999 with hle | hle
  · simp [hmax, hle]
  · rw [hmax, min_eq_left hle]
    refine ⟨.inr, fun h => h.elim (fun hle' => ?_) id⟩
    exact ⟨1, by omega⟩

/-- On a parent that accepts every write in full: a write of data is one of chunks, of 1 to
    99,999,999 bytes, that make up the data, if and only if the data fits in one chunk or is a
    multiple of the largest one. -/
theorem write_chunks_iff (w : ChunkedWriter ω) (hw : AcceptingWriter.Accepting w.parent)
    (data : Bytes) :
    (∃ (chunks : List Bytes) (w' : ChunkedWriter ω),
      (∀ c ∈ chunks, 1 ≤ c.length ∧ c.length ≤ 99999999) ∧ chunks.flatten = data ∧
      w.write data = some (⟨data.length, none⟩, w') ∧
      Wrote w.parent (chunks.flatMap fun c => [toString c.length, crlf, c, crlf]) w'.parent) ↔
    data.length ≤ 99999999 ∨ 99999999 ∣ data.length := by
  rw [← min_maxChunkSize_dvd_iff]
  refine ⟨fun ⟨_, _, _, _, hwrite, _⟩ => dvd_of_write hw hwrite, fun hdvd => ?_⟩
  obtain ⟨chunks, w', hchunks, hflatten, hwrite, hwrote⟩ := write_of_dvd hw rfl hdvd
  have hparts : chunks.flatMap chunkParts =
      chunks.flatMap fun c => [toString c.length, crlf, c, crlf] := by
    refine List.flatMap_congr fun c hc => ?_
    obtain ⟨hlen, hpos⟩ := hchunks c hc
    rw [chunkParts, if_neg (List.ne_nil_of_length_pos (hpos.trans_eq hlen.symm))]
  refine ⟨chunks, w', fun c hc => ?_, hflatten, hwrite, hparts ▸ hwrote⟩
  obtain ⟨hlen, hpos⟩ := hchunks c hc
  rw [hlen]
  exact ⟨hpos, min_le_left _ _⟩

/-- Three bytes make one chunk. -/
theorem write_chunks_iff_three :
    ∃ (chunks : List Bytes) (w' : ChunkedWriter Sink),
      (∀ c ∈ chunks, 1 ≤ c.length ∧ c.length ≤ 99999999) ∧ chunks.flatten = [1, 2, 3] ∧
      (new Sink.empty).write [1, 2, 3] = some (⟨3, none⟩, w') ∧
      Wrote Sink.empty (chunks.flatMap fun c => [toString c.length, crlf, c, crlf]) w'.parent :=
  (write_chunks_iff (new Sink.empty) rfl [1, 2, 3]).2 (.inl (by decide))

/-- A hundred million bytes: the second chunk is announced with as many bytes as the first one,
    where a single byte is left. -/
theorem write_second_chunk :
    ¬∃ res w', (new Sink.empty).write (List.replicate 100000000 0) = some (res, w') := by
  rintro ⟨res, w', hwrite⟩
  have hdvd := dvd_of_write (w := new Sink.empty) rfl hwrite
  rw [List.length_replicate] at hdvd
  exact absurd hdvd (by decide)

end Accepting

end ChunkedWriter

end Cppnet.Http
