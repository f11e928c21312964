import Cppnet.Http.Chunks
import Cppnet.Io.ReadAhead

/-!
# Bodies in chunks, in segments

A `chunked_reader` on a `buffered_reader`, on a source that hands out the body in segments of any
lengths. The end of a chunk is read in one read of two bytes, of which the `chunked_reader` does not
look at the count. It gets only the carriage return if that is the last byte of the buffer as filled
by one read of the source, and the only one (`Serving.count_two`): if there was a byte before it
in the segment, it is already in the buffer, and the buffer is filled again for the line feed. With a
capacity of one byte the read bypasses the buffer, and gets both.

The line feed is then taken for the beginning of the next size, which is an error
(`reaches_chunks`). So the body is read if and only if no segment is the carriage return alone at the end
of a chunk with data (`reads_segments_iff`).
-/

namespace Cppnet.Io

open Lib

/-- A read of the source, one of those of `capacity` bytes made one after the other, returns nothing
    but the carriage return of an end of line in front of `tail`. -/
def Source.SplitsEnd (s : Source) (capacity : ℕ) (tail : Bytes) : Prop :=
  ∃ k, ((drain capacity)^[k] s).pending = crlf ++ tail ∧ ((drain capacity)^[k] s).nextCount capacity = 1

namespace BufferedReader

variable {s₀ : Source} {capacity : ℕ} {r r' : BufferedReader Source} {tail span : Bytes}
  {err : Option ErrorCondition} {n : ℕ}

/-- A read of two bytes gets one if that is what a read of the source into the empty buffer gets, and
    two otherwise. -/
theorem Serving.count_two (hr : r.Serving s₀ capacity) {a b : Byte}
    (hlen : 2 ≤ (Reader.content r).length)
    (hread : Reader.read r [a, b] = some (⟨n, err⟩, span, r')) :
    n = if r.buf = [] ∧ 1 < capacity ∧ r.impl.nextCount capacity = 1 then 1 else 2 := by
  have hne : [a, b] ≠ [] := List.cons_ne_nil _ _
  have hle : n ≤ 2 := (LawfulReader.delivers hread).le_span
  obtain ⟨res, span', r₁, hread', -, -, -, hcount⟩ :=
    read_ready hr.ready hr.clean hne hlen
  cases hread.symm.trans hread'
  rw [hr.capacity_eq] at hcount
  simp only [List.length_cons, List.length_nil] at hcount
  by_cases hshort : r.buf = [] ∧ 1 < capacity
  · -- Both have to be in what one read of the source puts into the buffer.
    obtain ⟨hbuf, hcap⟩ := hshort
    have hn := count_of_buf_eq_nil hr.ready hbuf hne (hr.capacity_eq.symm ▸ hcap) hread
    rw [hr.capacity_eq] at hn
    simp only [List.length_cons, List.length_nil] at hn
    by_cases hone : r.impl.nextCount capacity = 1
    · rw [if_pos ⟨hbuf, hcap, hone⟩]
      omega
    · rw [if_neg fun h => hone h.2.2]
      omega
  · -- There is one in the buffer, or it holds no more than one: the read goes on for the other.
    rw [if_neg fun h => hshort ⟨h.1, h.2.1⟩]
    have hcap := hr.ready.capacity_pos
    rw [hr.capacity_eq] at hcap
    rcases not_and_or.1 hshort with hbuf | hcap'
    · have := List.length_pos_iff.2 hbuf
      omega
    · omega

/-- At the end of a line in front of `tail`, the buffer is empty and its source splits the end if one
    of the reads of the source is the carriage return alone. -/
theorem Serving.splitsEnd_iff (hr : r.Serving s₀ capacity)
    (hc : Reader.content r = crlf ++ tail) :
    s₀.SplitsEnd capacity tail ↔ r.buf = [] ∧ r.impl.nextCount capacity = 1 := by
  obtain ⟨j, hj, hlt⟩ := hr.behind
  rw [hr.capacity_eq] at hj hlt
  constructor
  · rintro ⟨k, hpending, hone⟩
    -- no read behind the `k`-th one was made yet
    have hle : j ≤ k := by
      by_contra hkj
      have := hlt k (Nat.not_le.1 hkj)
      rw [hpending, hc] at this
      exact lt_irrefl _ this
    have hbuf : r.buf = [] := by
      have hlen := (Source.drains_pending_suffix_of_le (n := capacity) s₀ hle).length_le
      rw [← hj, hpending, ← hc, content_eq, List.length_append, Source.reader_content] at hlen
      exact List.eq_nil_of_length_eq_zero (by omega)
    rw [content_eq, hbuf, List.nil_append, Source.reader_content] at hc
    -- and one made before it would have taken a byte
    have heq : j = k := by
      by_contra hne
      have hpos := Source.nextCount_pos (s := r.impl) (n := capacity) (fun ev hev => (hr.clean ev hev).1)
        (hr.capacity_eq ▸ hr.ready.capacity_pos) (by rw [hc]; exact List.cons_ne_nil _ _)
      have hle' := r.impl.nextCount_le_pending capacity
      have hlen := (Source.drains_pending_suffix_of_le (n := capacity) s₀
        (Nat.succ_le_of_lt (lt_of_le_of_ne hle hne))).length_le
      rw [Function.iterate_succ_apply', ← hj, Source.drain_pending, List.length_drop, hpending, ← hc]
        at hlen
      omega
    exact ⟨hbuf, by rw [hj, heq]; exact hone⟩
  · rintro ⟨hbuf, hone⟩
    rw [content_eq, hbuf, List.nil_append, Source.reader_content] at hc
    exact ⟨j, by rw [← hj, hc], by rw [← hj, hone]⟩

end BufferedReader

end Cppnet.Io

namespace Cppnet.Http.ChunkedReader

open Lib Io

section Steady

variable {σ : Type*} [Reader σ Byte ErrorCondition] [LawfulReader σ] {P : σ → Prop}

/-- Reads the rest of the data of a chunk, as there is room for it, up to the turn that reads the end
    of the chunk. -/
theorem reaches_end (h : Steady P) {s₁ s : State σ} {left tail D more data₀ : Bytes}
    (hturn : readTurn s₁ = readChunk s) (hs : P s.reader.parent)
    (hsize : s.reader.currentChunkSize = left.length) (hleft : left ≠ [])
    (hc : Reader.content s.reader.parent = left ++ tail) (hroom : D.length < data₀.length)
    (hd : Delivers D (left ++ more) data₀ s.data s.bytesRead) :
    ∃ s' p n data, Loop.Reaches readTurn s₁ s' ∧
      readTurn s' = (validateEndOfChunk ⟨p, 0⟩).map (endTurn n data) ∧ P p ∧
      Reader.content p = tail ∧ Delivers D more data₀ data n := by
  induction hlen : left.length using Nat.strongRecOn generalizing s₁ s left with
  | ind m ih =>
    subst hlen
    have hle := hd.le_content
    have hspan := hd.length_span
    obtain ⟨n, data, p, hn, hle, hd', hp, hrest, hmore, hend⟩ :=
      readChunk_cases h hs hsize hleft hc (by omega) hd
    rcases hle.lt_or_eq with hlt | heq
    · have hopen : left.length - n ≠ 0 := by omega
      have hroom' : s.bytesRead + n < data.length := by
        have := hd'.le_content
        have := hd'.length_span
        omega
      obtain ⟨s', q, n', data', hreach, hlast⟩ :=
        ih (left.drop n).length (by rw [List.length_drop]; omega)
          (readTurn_open (s := ⟨⟨p, left.length - n⟩, s.bytesRead + n, data⟩) hopen hroom') hp
          List.length_drop.symm (List.ne_nil_of_length_pos (by rw [List.length_drop]; omega)) hrest hd' rfl
      exact ⟨s', q, n', data', .next (hturn.trans (hmore hlt)) hreach, hlast⟩
    · rw [heq, List.drop_length, List.nil_append] at hrest
      rw [heq, List.drop_length, List.nil_append] at hd'
      exact ⟨s₁, p, _, data, .refl _, heq ▸ hturn.trans (hend heq), hp, hrest, hd'⟩

/-- A line feed in the place of a size. -/
theorem readTurn_lf (h : Steady P) {s : State σ} {tail : Bytes} (hs : P s.reader.parent)
    (hsize : s.reader.currentChunkSize = 0) (hc : Reader.content s.reader.parent = 10 :: tail)
    (hroom : s.bytesRead < s.data.length) :
    ∃ r', readTurn s =
      some (.done (⟨s.bytesRead, some (.errc .illegalByteSequence)⟩, s.data, r')) := by
  obtain ⟨r', hturn⟩ := sizeTurn_illegal h (r := { s.reader with currentChunkSize := 0 }) hs hc
    (by decide) (by decide)
  have hnext : s.reader.getNextChunkSize = some (some (.errc .illegalByteSequence), r') :=
    Loop.run_succ_done hturn
  exact ⟨r', by rw [readTurn, if_pos hroom, if_pos hsize, hnext]; rfl⟩

end Steady

variable {s₀ : Source} {capacity : ℕ}

/-- No read of the source is the carriage return alone at the end of one of the chunks with the given
    texts, with `tail` behind them, unless the capacity is one byte. -/
def Unsplit (s₀ : Source) (capacity : ℕ) (tail : Bytes) (texts : List Bytes) : Prop :=
  1 < capacity → ∀ c cs, c :: cs <:+ texts → ¬s₀.SplitsEnd capacity (cs.flatten ++ tail)

theorem unsplit_cons_iff {tail c : Bytes} {texts : List Bytes} :
    Unsplit s₀ capacity tail (c :: texts) ↔
      (1 < capacity → ¬s₀.SplitsEnd capacity (texts.flatten ++ tail)) ∧
        Unsplit s₀ capacity tail texts := by
  constructor
  · exact fun h => ⟨fun hcap => h hcap c texts List.suffix_rfl, fun hcap c' cs hcs =>
      h hcap c' cs (hcs.trans (List.suffix_cons c texts))⟩
  · rintro ⟨h, h'⟩ hcap c' cs hcs
    rcases List.suffix_cons_iff.1 hcs with heq | hsuffix
    · cases heq
      exact h hcap
    · exact h' hcap c' cs hsuffix

/-- An end of a chunk that is not split is read at once. -/
theorem whole_serving (s₀ : Source) (capacity : ℕ) :
    Whole (BufferedReader.Serving s₀ capacity) fun tail =>
      1 < capacity → ¬s₀.SplitsEnd capacity tail := by
  intro r r' tail span k hr hsplit hc hread
  rw [hr.count_two (by simp [hc, crlf]) hread, if_neg]
  rintro ⟨hbuf, hcap, hone⟩
  exact hsplit hcap ((hr.splitsEnd_iff hc).2 ⟨hbuf, hone⟩)

/-- One chunk, as there is room for it: the reader gets behind it, or, if its end is split, to the
    line feed. -/
theorem reaches_chunk {s : State (BufferedReader Source)} {c : Chunk} {tail D more data₀ : Bytes}
    (hs : s.reader.parent.Serving s₀ capacity) (hsize : s.reader.currentChunkSize = 0)
    (hc : Reader.content s.reader.parent = c.text ++ tail) (hroom : D.length < data₀.length)
    (hd : Delivers D (c.data ++ more) data₀ s.data s.bytesRead) :
    ∃ p n data, Loop.Reaches readTurn s ⟨⟨p, 0⟩, n, data⟩ ∧ p.Serving s₀ capacity ∧
      Delivers D more data₀ data n ∧
      ((1 < capacity ∧ s₀.SplitsEnd capacity tail ∧ Reader.content p = 10 :: tail) ∨
        ((1 < capacity → ¬s₀.SplitsEnd capacity tail) ∧ Reader.content p = tail)) := by
  have h := BufferedReader.steady_serving s₀ capacity
  have hlt := hd.le_content
  have hlen := hd.length_span
  have hpos := List.length_pos_iff.2 c.data_ne_nil
  rw [Chunk.text, List.append_assoc, List.append_assoc, List.append_assoc] at hc
  obtain ⟨p, hnext, hp, hrest⟩ := getNextChunkSize_eq h c.isNumeral hs hc
  rw [c.value_eq, Nat.mod_eq_of_lt c.data_lt] at hnext
  obtain ⟨s', q, n, data, hreach, hturn, hq, hcq, hd'⟩ :=
    reaches_end h (readTurn_chunk hsize (by omega) hnext hpos.ne') hp rfl c.data_ne_nil hrest hroom hd
  obtain ⟨k, span, q', hread, hq', -, -, hcq', hvalid⟩ :=
    validateEndOfChunk_eq h (r := ⟨q, 0⟩) hq hcq
  rw [hvalid] at hturn
  refine ⟨q', n, data, hreach.trans (.next hturn (.refl _)), hq', hd', ?_⟩
  -- The read of the source at the end of the chunk decides how much of it is seen.
  have hk := hq.count_two (by simp [hcq, crlf]) hread
  by_cases hsplit : 1 < capacity ∧ s₀.SplitsEnd capacity tail
  · obtain ⟨hbuf, hone⟩ := (hq.splitsEnd_iff hcq).1 hsplit.2
    rw [if_pos ⟨hbuf, hsplit.1, hone⟩] at hk
    subst hk
    exact .inl ⟨hsplit.1, hsplit.2, hcq'⟩
  · rw [if_neg fun hbad => hsplit ⟨hbad.2.1, (hq.splitsEnd_iff hcq).2 ⟨hbad.1, hbad.2.2⟩⟩] at hk
    subst hk
    exact .inr ⟨fun hcap hends => hsplit ⟨hcap, hends⟩, hcq'⟩

/-- Chunks, as there is room for all data: the reader gets behind them, or, if the end of one is
    split, to an error. -/
theorem reaches_chunks {s : State (BufferedReader Source)} {cs : List Chunk} {tail D more data₀ : Bytes}
    (hs : s.reader.parent.Serving s₀ capacity) (hsize : s.reader.currentChunkSize = 0)
    (hc : Reader.content s.reader.parent = cs.flatMap Chunk.text ++ tail)
    (hroom : D.length < data₀.length) (hd : Delivers D (bodyData cs ++ more) data₀ s.data s.bytesRead) :
    (¬Unsplit s₀ capacity tail (cs.map Chunk.text) ∧ ∃ q, Loop.Returns readTurn s q ∧
        q.1.err = some (.errc .illegalByteSequence)) ∨
      (Unsplit s₀ capacity tail (cs.map Chunk.text) ∧ ∃ p n data,
        Loop.Reaches readTurn s ⟨⟨p, 0⟩, n, data⟩ ∧ p.Serving s₀ capacity ∧
        Reader.content p = tail ∧ Delivers D more data₀ data n) := by
  induction cs generalizing s with
  | nil =>
    obtain ⟨⟨p, size⟩, n, data⟩ := s
    dsimp only at hsize
    subst hsize
    exact .inr ⟨fun _ c cs hcs => absurd (List.suffix_nil.1 hcs) (List.cons_ne_nil _ _), p, n, data,
      .refl _, hs, hc, hd⟩
  | cons c cs ih =>
    rw [List.flatMap_cons, List.append_assoc] at hc
    rw [bodyData_cons, List.append_assoc] at hd
    rw [List.map_cons, unsplit_cons_iff]
    obtain ⟨p, n, data, hreach, hp, hd', hend⟩ := reaches_chunk hs hsize hc hroom hd
    rcases hend with ⟨hcap, hsplit, hcp⟩ | ⟨hsplit, hcp⟩
    · -- the line feed is in the place of the next size
      have hlt := hd'.le_content
      have hlen := hd'.length_span
      obtain ⟨r', hdone⟩ := readTurn_lf (BufferedReader.steady_serving s₀ capacity)
        (s := ⟨⟨p, 0⟩, n, data⟩) hp rfl hcp (by dsimp only; omega)
      exact .inl ⟨fun hun => hun.1 hcap hsplit, _, hreach.returns (.done hdone), rfl⟩
    · rcases ih (s := ⟨⟨p, 0⟩, n, data⟩) hp rfl hcp hd' with
        ⟨hun, q, hret, herr⟩ | ⟨hun, p', n', data', hreach', hlast⟩
      · exact .inl ⟨fun h => hun h.2, q, hreach.returns hret, herr⟩
      · exact .inr ⟨⟨hsplit, hun⟩, p', n', data', hreach.trans hreach', hlast⟩

/-- Reads of a body no end of a chunk of which is split, up to and including the first one that asks for
    more than there is. -/
theorem reads_unsplit {p : BufferedReader Source} (hp : p.Serving s₀ capacity) {last rest : Bytes}
    (hlast : IsZero last) {chunks : List Chunk} (hc : Reader.content p = bodyText last chunks ++ rest)
    (hunsplit : Unsplit s₀ capacity (last ++ crlf ++ crlf ++ rest) (chunks.map Chunk.text))
    {spans : List Bytes}
    (hspans : spans.dropLast.flatten.length ≤ (bodyData chunks).length) :
    ∃ r, (new p).reads spans = some (fullResults (bodyData chunks).length spans,
      (bodyData chunks).take spans.flatten.length, r) := by
  have hat : (new p).At (BufferedReader.Serving s₀ capacity)
      (fun tail => 1 < capacity → ¬s₀.SplitsEnd capacity tail) last rest [] chunks := by
    refine ⟨hp, rfl, hc, fun h => absurd rfl h, fun c cs hcs hcap => ?_⟩
    rw [bodyText, List.append_assoc]
    exact hunsplit hcap c.text (cs.map Chunk.text) (hcs.map Chunk.text)
  obtain ⟨r, hreads, -⟩ := reads_at (BufferedReader.steady_serving s₀ capacity)
    (whole_serving s₀ capacity) hlast hat rfl hspans
  exact ⟨r, hreads⟩

/-- If the loop of a read returns an error, the read does not deliver the data without one. -/
theorem reads_ne_of_returns {p : BufferedReader Source} {data D : Bytes}
    {q : Result × Bytes × ChunkedReader (BufferedReader Source)} {e : ErrorCondition}
    (hret : Loop.Returns readTurn ⟨new p, 0, data⟩ q) (herr : q.1.err = some e)
    (r : ChunkedReader (BufferedReader Source)) :
    (new p).reads [data] ≠ some (fullResults D.length [data], D.take [data].flatten.length, r) := by
  intro hread
  obtain ⟨q', hrun, hread⟩ := Option.bind_eq_some_iff.1 hread
  obtain rfl := hret.unique (Loop.returns_of_run hrun)
  simp only [reads, fullResults, Option.bind_eq_bind, Option.bind_some, Option.some.injEq,
    Prod.mk.injEq, List.cons.injEq, and_true] at hread
  rw [hread.1] at herr
  cases herr

end Cppnet.Http.ChunkedReader

namespace Cppnet.Http

open Lib Io

/-- Every sequence of reads, up to and including the first one that asks for more than there is,
    delivers the data of a body in chunks without an error, from a buffered reader on a source that
    hands out its text in any segments, if and only if the capacity is one byte, or no read of the source
    returns just the carriage return at the end of a chunk with data. -/
theorem reads_segments_iff (chunks : List Chunk) (rest : Bytes) (capacity : ℕ) (hcap : 0 < capacity)
    (s : Source) (hclean : s.Clean) (hs : s.pending = bodyText (sv "0") chunks ++ rest) :
    (∀ spans : List Bytes, spans.dropLast.flatten.length ≤ (bodyData chunks).length →
      ∃ r, (ChunkedReader.new (BufferedReader.new s capacity)).reads spans =
        some (ChunkedReader.fullResults (bodyData chunks).length spans,
          (bodyData chunks).take spans.flatten.length, r)) ↔
      ChunkedReader.Unsplit s capacity (sv "0" ++ crlf ++ crlf ++ rest) (chunks.map Chunk.text) := by
  have hnew := BufferedReader.serving_new hclean hcap
  constructor
  · intro hreads
    set D := bodyData chunks with hD
    set data : Bytes := List.replicate (D.length + 1) 0 with hdata
    have hlen : data.length = D.length + 1 := List.length_replicate
    rw [bodyText, List.append_assoc] at hs
    have hd : Delivers D (D ++ []) data data 0 := by
      rw [List.append_nil]
      exact Delivers.refl D data
    obtain ⟨-, q, hret, herr⟩ | ⟨hunsplit, -⟩ := ChunkedReader.reaches_chunks (s := ⟨ChunkedReader.new
      (BufferedReader.new s capacity), 0, data⟩) hnew rfl hs (by omega) hd
    · obtain ⟨r, hread⟩ := hreads [data] (Nat.zero_le _)
      exact absurd hread (ChunkedReader.reads_ne_of_returns hret herr r)
    · exact hunsplit
  · intro hunsplit spans hspans
    exact ChunkedReader.reads_unsplit hnew (by decide) hs hunsplit hspans

/-- The chunk of the data `ab`. -/
def Chunk.ab : Chunk where
  size := sv "2"
  data := sv "ab"
  isNumeral := by decide
  value_eq := by decide
  data_ne_nil := by decide
  data_lt := by decide

/-- A source handing out the chunk of `ab` and the last one, in a segment with the size and the data,
    one with the next `n` bytes, and one with the rest. -/
def abSource (n : ℕ) : Source := ⟨bodyText (sv "0") [Chunk.ab] ++ [], [⟨5, none⟩, ⟨n, none⟩], none⟩

/-- The end of the chunk in one segment. -/
theorem reads_segments_iff_ab :
    ∃ r, (ChunkedReader.new (BufferedReader.new (abSource 2) 16)).reads [[0, 0, 0]] =
      some ([⟨2, none⟩], sv "ab", r) := by
  have hunsplit : ChunkedReader.Unsplit (abSource 2) 16 (sv "0" ++ crlf ++ crlf ++ [])
      [Chunk.ab.text] := by
    rintro - c cs hcs ⟨k, hpending, hone⟩
    obtain rfl : cs = [] := by
      have := hcs.length_le
      exact List.eq_nil_of_length_eq_zero (by simpa using this)
    match k with
    | 0 => exact absurd hpending (by decide)
    | 1 => exact absurd hone (by decide)
    | k + 2 =>
      have hlen := (Source.drains_pending_suffix_of_le (n := 16) (abSource 2)
        (Nat.le_add_left 2 k)).length_le
      rw [hpending] at hlen
      exact absurd hlen (by decide)
  exact (reads_segments_iff [Chunk.ab] [] 16 (by decide) (abSource 2) (by decide) rfl).2 hunsplit
    [[0, 0, 0]] (by decide)

/-- The carriage return of the end of the chunk in a segment of its own. -/
theorem reads_segments_error :
    (abSource 1).Clean ∧ (abSource 1).pending = bodyText (sv "0") [Chunk.ab] ++ [] ∧
      ∃ r, (ChunkedReader.new (BufferedReader.new (abSource 1) 16)).reads [[0, 0, 0]] =
        some ([⟨2, some (.errc .illegalByteSequence)⟩], sv "ab", r) := by
  refine ⟨by decide, rfl, ?_⟩
  exact ⟨_, rfl⟩

end Cppnet.Http
