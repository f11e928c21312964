import Cppnet.Http.ChunkedReader
import Cppnet.Http.ChunkedWriter

/-!
# Bodies in chunks

The bodies a `chunked_reader` reads: chunks with data, and a last one without. A read of a body
ends in the middle of a chunk, or at the end of one, or behind the last one; where a reader is
between two reads is described by `ChunkedReader.At`, and a read leads from one such position to
another (`ChunkedReader.read_at`), as long as

* the parent delivers something of what it is asked for (`Lib.Steady`);
* the two bytes at the end of a chunk come at once (`ChunkedReader.Whole`), for of these reads the
  reader does not look at the count. Those at the end of the last chunk need not.

On a parent that fills every read, a body written by `chunked_writer` is read back (`reads_writes`).
-/

namespace Cppnet.Http

open Lib Io

/-- A chunk with data: its size, in decimal, and the data. -/
structure Chunk where
  size : Bytes
  data : Bytes
  isNumeral : IsNumeral size
  value_eq : numeralValue 10 (digits 10 size) = data.length
  data_ne_nil : data ≠ []
  data_lt : data.length < 2 ^ 64

/-- The text of a chunk. -/
def Chunk.text (c : Chunk) : Bytes := c.size ++ crlf ++ (c.data ++ crlf)

/-- The size of a last chunk: one zero, or more. -/
def IsZero (last : Bytes) : Prop := IsNumeral last ∧ numeralValue 10 (digits 10 last) = 0

instance (last : Bytes) : Decidable (IsZero last) := inferInstanceAs (Decidable (_ ∧ _))

/-- The text of a body, with the size of the last chunk. -/
def bodyText (last : Bytes) (chunks : List Chunk) : Bytes :=
  chunks.flatMap Chunk.text ++ (last ++ crlf ++ crlf)

/-- The data of the chunks. -/
def bodyData (chunks : List Chunk) : Bytes := chunks.flatMap Chunk.data

theorem bodyText_cons (last : Bytes) (c : Chunk) (chunks : List Chunk) :
    bodyText last (c :: chunks) = c.size ++ crlf ++ (c.data ++ crlf ++ bodyText last chunks) := by
  simp [bodyText, Chunk.text]

theorem bodyData_cons (c : Chunk) (chunks : List Chunk) :
    bodyData (c :: chunks) = c.data ++ bodyData chunks :=
  List.flatMap_cons

namespace ChunkedReader

section Steady

variable {σ : Type*} [Reader σ Byte ErrorCondition] [LawfulReader σ] {P : σ → Prop}
  {r : ChunkedReader σ} {rest : Bytes}

/-! ## Sizes -/

/-- A digit of the size. -/
theorem sizeTurn_digit (h : Steady P) (hr : P r.parent) {c : Byte} {d : ℕ}
    (hc : Reader.content r.parent = c :: rest) (hd : digit 10 c = some d) :
    ∃ p, sizeTurn r = some (.next ⟨p, (r.currentChunkSize * 10 + d) % 2 ^ 64⟩) ∧ P p ∧
      Reader.content p = rest := by
  obtain ⟨p, hread, hp, hrest⟩ := h.read_one hr hc 0
  refine ⟨p, ?_, hp, hrest⟩
  rw [digit_ten] at hd
  split at hd
  · next hrange =>
    cases hd
    rw [sizeTurn, hread]
    simp [hrange]
  · cases hd

/-- The end of the line of the size. -/
theorem sizeTurn_crlf (h : Steady P) (hr : P r.parent)
    (hc : Reader.content r.parent = crlf ++ rest) :
    ∃ p, sizeTurn r = some (.done (none, ⟨p, r.currentChunkSize⟩)) ∧ P p ∧
      Reader.content p = rest := by
  obtain ⟨p₁, hread₁, hp₁, hrest₁⟩ := h.read_one hr hc 0
  obtain ⟨p, hread, hp, hrest⟩ := h.read_one hp₁ hrest₁ 13
  refine ⟨p, ?_, hp, hrest⟩
  have hrange : ¬(ch '0' ≤ 13 ∧ 13 ≤ ch '9') := by decide
  have hcr : (13 : Byte) = ch '\r' := by decide
  have hlf : (10 : Byte) = ch '\n' := by decide
  simp [sizeTurn, hread₁, hrange, ← hcr, hread, ← hlf]

/-- A byte that is neither a digit nor a carriage return. -/
theorem sizeTurn_illegal (h : Steady P) (hr : P r.parent) {c : Byte}
    (hc : Reader.content r.parent = c :: rest) (hd : digit 10 c = none) (hcr : c ≠ 13) :
    ∃ r', sizeTurn r = some (.done (some (.errc .illegalByteSequence), r')) := by
  obtain ⟨p, hread, -⟩ := h.read_one hr hc 0
  refine ⟨⟨p, r.currentChunkSize⟩, ?_⟩
  rw [digit_ten] at hd
  split at hd
  · cases hd
  · next hrange =>
    have hcr' : c ≠ ch '\r' := hcr
    simp [sizeTurn, hread, hrange, hcr']

/-- The digits of a size, with anything behind them. -/
theorem run_sizeTurn_digits (h : Steady P) {size : Bytes} (hsize : ∀ c ∈ size, (digit 10 c).isSome) {v : ℕ}
    (hr : P r.parent) (hv : r.currentChunkSize = v % 2 ^ 64)
    (hc : Reader.content r.parent = size ++ rest) (n : ℕ) :
    ∃ p, Loop.run sizeTurn (n + size.length) r =
        Loop.run sizeTurn n ⟨p, (digits 10 size).foldl (fun v d => 10 * v + d) v % 2 ^ 64⟩ ∧ P p ∧
      Reader.content p = rest := by
  induction size generalizing r v with
  | nil =>
    refine ⟨r.parent, ?_, hr, hc⟩
    rw [digits, List.foldl_nil, ← hv]
    rfl
  | cons c size ih =>
    rw [List.forall_mem_cons] at hsize
    obtain ⟨d, hd⟩ := Option.isSome_iff_exists.1 hsize.1
    obtain ⟨p₁, hturn, hp₁, hrest₁⟩ := sizeTurn_digit h hr hc hd
    have hv₁ : (r.currentChunkSize * 10 + d) % 2 ^ 64 = (10 * v + d) % 2 ^ 64 := by omega
    obtain ⟨p, hrun, hp, hrest⟩ := ih hsize.2 (r := ⟨p₁, _⟩) hp₁ hv₁ hrest₁
    rw [digits_cons hd]
    exact ⟨p, (Loop.run_succ_next hturn).trans hrun, hp, hrest⟩

/-- The digits of a size, up to the end of its line. -/
theorem run_sizeTurn (h : Steady P) {size : Bytes} (hsize : ∀ c ∈ size, (digit 10 c).isSome)
    {v n : ℕ} (hr : P r.parent) (hv : r.currentChunkSize = v % 2 ^ 64)
    (hc : Reader.content r.parent = size ++ (crlf ++ rest)) (hn : size.length < n) :
    ∃ p, Loop.run sizeTurn n r = some (none,
        ⟨p, (digits 10 size).foldl (fun v d => 10 * v + d) v % 2 ^ 64⟩) ∧ P p ∧
      Reader.content p = rest := by
  obtain ⟨m, rfl⟩ : ∃ m, n = m + 1 + size.length := ⟨n - 1 - size.length, by omega⟩
  obtain ⟨p₁, hrun, hp₁, hrest₁⟩ := run_sizeTurn_digits h hsize hr hv hc (m + 1)
  obtain ⟨p, hturn, hp, hrest⟩ := sizeTurn_crlf h (r := ⟨p₁, _⟩) hp₁ hrest₁
  exact ⟨p, hrun.trans (Loop.run_succ_done hturn), hp, hrest⟩

/-- `get_next_chunk_size` reads a decimal size. -/
theorem getNextChunkSize_eq (h : Steady P) {size : Bytes} (hsize : IsNumeral size)
    (hr : P r.parent) (hc : Reader.content r.parent = size ++ (crlf ++ rest)) :
    ∃ p, r.getNextChunkSize = some (none, ⟨p, numeralValue 10 (digits 10 size) % 2 ^ 64⟩) ∧ P p ∧
      Reader.content p = rest := by
  refine run_sizeTurn h hsize.2 (r := { r with currentChunkSize := 0 }) (v := 0) hr rfl hc ?_
  have hfuel := h.fuel hr
  rw [hc, List.length_append] at hfuel
  omega

/-! ## Ends of chunks -/

/-- `validate_end_of_chunk` accepts an end of line, also if it gets only the first byte of it. -/
theorem validateEndOfChunk_eq (h : Steady P) (hr : P r.parent)
    (hc : Reader.content r.parent = crlf ++ rest) :
    ∃ k span p, Reader.read r.parent [0, 0] = some (⟨k, none⟩, span, p) ∧ P p ∧ 0 < k ∧ k ≤ 2 ∧
      Reader.content p = (crlf ++ rest).drop k ∧
      r.validateEndOfChunk = some (none, ⟨p, r.currentChunkSize⟩) := by
  obtain ⟨k, span, p, hread, hp, hpos⟩ := h.read (d := [0, 0]) hr (List.cons_ne_nil _ _) (by
    simp [hc, crlf])
  have hd := LawfulReader.delivers hread
  have hspan := hd.span
  have hrest := hd.rest
  rw [hc] at hspan hrest
  have hfirst : span.getD 0 0 = ch '\r' := by
    obtain ⟨k, rfl⟩ := Nat.exists_eq_succ_of_ne_zero hpos.ne'
    rw [hspan]
    rfl
  refine ⟨k, span, p, hread, hp, hpos, hd.le_span, hrest, ?_⟩
  simp only [validateEndOfChunk, hread, hfirst, Option.bind_eq_bind, Option.bind_some,
    Option.isSome_none, ne_eq, not_true_eq_false, false_and, if_false]
  rfl

/-- `validate_end_of_chunk` rejects two bytes neither of which is that of an end of line. -/
theorem validateEndOfChunk_illegal (h : Steady P) (hr : P r.parent) {a b : Byte}
    (hc : Reader.content r.parent = a :: b :: rest) (ha : a ≠ 13) (hb : b ≠ 10) :
    ∃ r', r.validateEndOfChunk = some (some (.errc .illegalByteSequence), r') := by
  obtain ⟨k, span, p, hread, -, hpos⟩ := h.read (d := [0, 0]) hr (List.cons_ne_nil _ _) (by simp [hc])
  have hd := LawfulReader.delivers hread
  have hk : k ≤ 2 := hd.le_span
  have hspan := hd.span
  rw [hc] at hspan
  have hbytes : span.getD 0 0 ≠ ch '\r' ∧ span.getD 1 0 ≠ ch '\n' := by
    rw [hspan]
    -- the second byte is not looked for if it is not there
    obtain rfl | rfl : k = 1 ∨ k = 2 := by omega
    · exact ⟨ha, show (0 : Byte) ≠ ch '\n' by decide⟩
    · exact ⟨ha, hb⟩
  refine ⟨⟨p, r.currentChunkSize⟩, ?_⟩
  simp only [validateEndOfChunk, hread, Option.bind_eq_bind, Option.bind_some]
  rw [if_pos hbytes]
  rfl

/-! ## Data -/

/-- The end of the turn that has read the last byte of a chunk. -/
def endTurn (bytesRead : ℕ) (data : Bytes) (q : Option ErrorCondition × ChunkedReader σ) :
    Turn (State σ) (Result × Bytes × ChunkedReader σ) :=
  if q.1.isSome then .done (⟨bytesRead, q.1⟩, data, q.2) else .next ⟨q.2, bytesRead, data⟩

omit [LawfulReader σ] in
/-- A read of some bytes of a chunk: it goes on, or else its end is read. -/
theorem readChunk_of_read {s : State σ} {n : ℕ} {piece : Bytes} {p : σ}
    (hread : Reader.read s.reader.parent
      (subspan s.data s.bytesRead (min (s.data.length - s.bytesRead) s.reader.currentChunkSize)) =
        some (⟨n, none⟩, piece, p)) :
    readChunk s =
      if s.reader.currentChunkSize - n = 0 then
        (validateEndOfChunk ⟨p, 0⟩).map (endTurn (s.bytesRead + n) (overwrite s.data s.bytesRead piece))
      else some (.next ⟨⟨p, s.reader.currentChunkSize - n⟩, s.bytesRead + n, overwrite s.data s.bytesRead piece⟩) := by
  rw [readChunk, hread, Option.bind_eq_bind, Option.bind_some]
  dsimp only
  by_cases hend : s.reader.currentChunkSize - n = 0
  · rw [if_pos hend, if_pos hend, hend]
    rcases validateEndOfChunk (⟨p, 0⟩ : ChunkedReader σ) with _ | ⟨err, reader⟩
    · rfl
    · cases err <;> rfl
  · rw [if_neg hend, if_neg hend]
    rfl

/-- The next read of the data of a chunk: there is some of it left, or else its end is read. -/
theorem readChunk_cases (h : Steady P) {s : State σ} {left tail D more data₀ : Bytes}
    (hs : P s.reader.parent) (hsize : s.reader.currentChunkSize = left.length) (hleft : left ≠ [])
    (hc : Reader.content s.reader.parent = left ++ tail) (hroom : s.bytesRead < s.data.length)
    (hd : Delivers D (left ++ more) data₀ s.data s.bytesRead) :
    ∃ n data p, 0 < n ∧ n ≤ left.length ∧
      Delivers D (left.drop n ++ more) data₀ data (s.bytesRead + n) ∧ P p ∧
      Reader.content p = left.drop n ++ tail ∧
      (n < left.length →
        readChunk s = some (.next ⟨⟨p, left.length - n⟩, s.bytesRead + n, data⟩)) ∧
      (n = left.length →
        readChunk s = (validateEndOfChunk ⟨p, 0⟩).map (endTurn (s.bytesRead + n) data)) := by
  have hpos := List.length_pos_iff.2 hleft
  set amount := min (s.data.length - s.bytesRead) left.length with hamount
  -- No more is asked for than is left of the chunk, so that the read stays in it.
  have hspan : (subspan s.data s.bytesRead amount).length = amount := length_subspan (by omega)
  obtain ⟨n, piece, p, hread, hp, hn⟩ := h.read (d := subspan s.data s.bytesRead amount) hs
    (List.ne_nil_of_length_pos (by omega)) (by rw [hspan, hc, List.length_append]; omega)
  have hpiece := LawfulReader.delivers hread
  have hle : n ≤ amount := hspan ▸ hpiece.le_span
  have hle' : n ≤ left.length := hle.trans (min_le_right _ _)
  rw [hc] at hpiece
  refine ⟨n, overwrite s.data s.bytesRead piece, p, hn, hle', hd.sub (hpiece.of_front hle' more), hp,
    by rw [hpiece.rest, List.drop_append_of_le_length hle'], fun hlt => ?_, fun heq => ?_⟩
  · rw [readChunk_of_read (by rw [hsize]; exact hread), hsize, if_neg (by omega)]
  · rw [readChunk_of_read (by rw [hsize]; exact hread), hsize, if_pos (by omega)]

end Steady

/-! ## Positions in a body -/

/-- What is left of the chunk that is being read, if it is. -/
def openText (left : Bytes) : Bytes := if left = [] then [] else left ++ crlf

theorem openText_of_ne_nil {left : Bytes} (h : left ≠ []) : openText left = left ++ crlf := if_neg h

/-- The end of a chunk in front of a text `Q` is read at once. -/
def Whole {σ : Type*} [Reader σ Byte ErrorCondition] (P : σ → Prop) (Q : Bytes → Prop) : Prop :=
  ∀ {s s' : σ} {tail span : Bytes} {k : ℕ}, P s → Q tail → Reader.content s = crlf ++ tail →
    Reader.read s [0, 0] = some (⟨k, none⟩, span, s') → k = 2

/-- The reader `r` has still to read `left` of a chunk, and then the chunks `cs`, with the size
    `last` in the last one, and `rest` behind the body. All ends of chunks are in front of texts
    `Q`, with the possible exception of the last one. -/
structure At {σ : Type*} [Reader σ Byte ErrorCondition] (P : σ → Prop) (Q : Bytes → Prop)
    (last rest : Bytes) (r : ChunkedReader σ) (left : Bytes) (cs : List Chunk) : Prop where
  parent : P r.parent
  size : r.currentChunkSize = left.length
  content : Reader.content r.parent = openText left ++ (bodyText last cs ++ rest)
  open_end : left ≠ [] → Q (bodyText last cs ++ rest)
  ends : ∀ c cs', c :: cs' <:+ cs → Q (bodyText last cs' ++ rest)

/-- Reads that are filled do not split the end of a chunk. -/
theorem whole_filling {σ : Type*} [Reader σ Byte ErrorCondition] [FillingReader σ] :
    Whole (FillingReader.Filling (σ := σ)) fun _ => True := by
  intro s s' tail span k hs _ hc hread
  obtain ⟨span', s₁, hread', -⟩ := FillingReader.read_filling (d := [0, 0]) hs
    (List.cons_ne_nil _ _) (by simp [hc, crlf])
  cases hread.symm.trans hread'
  rfl

/-- A reader in front of a body. -/
theorem at_new {σ : Type*} [Reader σ Byte ErrorCondition] {P : σ → Prop} {s : σ} {last rest : Bytes}
    {cs : List Chunk} (hs : P s) (hc : Reader.content s = bodyText last cs ++ rest) :
    (new s).At P (fun _ => True) last rest [] cs :=
  ⟨hs, rfl, hc, fun _ => trivial, fun _ _ _ => trivial⟩

section Body

variable {σ : Type*} [Reader σ Byte ErrorCondition] [LawfulReader σ] {P : σ → Prop}
  {Q : Bytes → Prop} {last rest left D data₀ : Bytes} {cs : List Chunk}

/-- The next read of the data of a chunk. -/
theorem readChunk_at (h : Steady P) (hwhole : Whole P Q) {s : State σ}
    (hs : s.reader.At P Q last rest left cs) (hleft : left ≠ []) (hroom : s.bytesRead < s.data.length)
    (hd : Delivers D (left ++ bodyData cs) data₀ s.data s.bytesRead) :
    ∃ s' left', readChunk s = some (.next s') ∧ s'.reader.At P Q last rest left' cs ∧
      Delivers D (left' ++ bodyData cs) data₀ s'.data s'.bytesRead ∧
      (Reader.content s'.reader.parent).length < (Reader.content s.reader.parent).length := by
  have hc := hs.content
  rw [openText_of_ne_nil hleft, List.append_assoc] at hc
  obtain ⟨n, data, p, hn, hle, hd', hp, hrest, hmore, hend⟩ :=
    readChunk_cases h hs.parent hs.size hleft hc hroom hd
  rcases hle.lt_or_eq with hlt | heq
  · -- The chunk goes on.
    have hne : left.drop n ≠ [] := List.ne_nil_of_length_pos (by rw [List.length_drop]; omega)
    refine ⟨_, left.drop n, hmore hlt, ⟨hp, List.length_drop.symm, ?_, fun _ => hs.open_end hleft,
      hs.ends⟩, hd', ?_⟩
    · rw [openText_of_ne_nil hne, List.append_assoc, hrest]
    · dsimp only
      rw [hrest, hc]
      simp only [List.length_append, List.length_drop]
      omega
  · -- This was the last of the chunk, and its end is read in the same turn.
    rw [heq, List.drop_length, List.nil_append] at hrest
    obtain ⟨k, span, p', hread, hp', -, -, hrest', hvalid⟩ :=
      validateEndOfChunk_eq h (r := ⟨p, 0⟩) hp hrest
    obtain rfl := hwhole hp (hs.open_end hleft) hrest hread
    have hturn := hend heq
    rw [hvalid] at hturn
    refine ⟨_, [], hturn, ⟨hp', rfl, hrest', fun h => absurd rfl h, hs.ends⟩, ?_, ?_⟩
    · rwa [heq, List.drop_length, ← heq] at hd'
    · dsimp only
      rw [hrest', hc]
      simp only [List.length_append, List.length_drop]
      omega

/-- The size of the next chunk. -/
theorem getNextChunkSize_at (h : Steady P) {r : ChunkedReader σ} {c : Chunk}
    (hr : r.At P Q last rest [] (c :: cs)) :
    ∃ r', r.getNextChunkSize = some (none, r') ∧ r'.At P Q last rest c.data cs ∧
      (Reader.content r'.parent).length < (Reader.content r.parent).length := by
  have hc := hr.content
  rw [openText, if_pos rfl, List.nil_append, bodyText_cons, List.append_assoc, List.append_assoc]
    at hc
  obtain ⟨p, hsize, hp, hrest⟩ := getNextChunkSize_eq h c.isNumeral hr.parent hc
  rw [c.value_eq, Nat.mod_eq_of_lt c.data_lt] at hsize
  refine ⟨_, hsize, ⟨hp, rfl, ?_, fun _ => hr.ends c cs List.suffix_rfl,
    fun c' cs' hcs' => hr.ends c' cs' (hcs'.trans (List.suffix_cons c cs))⟩, ?_⟩
  · rw [hrest, openText_of_ne_nil c.data_ne_nil, List.append_assoc]
  · dsimp only
    rw [hrest, hc]
    simp [crlf]
    omega

/-- The last chunk. -/
theorem getNextChunkSize_last (h : Steady P) (hlast : IsZero last) {r : ChunkedReader σ}
    (hr : r.At P Q last rest [] []) :
    ∃ p, r.getNextChunkSize = some (none, ⟨p, 0⟩) ∧ P p ∧ Reader.content p = crlf ++ rest := by
  have hc := hr.content
  rw [openText, if_pos rfl, List.nil_append, bodyText, List.flatMap_nil, List.nil_append,
    List.append_assoc, List.append_assoc] at hc
  obtain ⟨p, hsize, hp, hrest⟩ := getNextChunkSize_eq h hlast.1 hr.parent hc
  rw [hlast.2] at hsize
  exact ⟨p, hsize, hp, hrest⟩

omit [LawfulReader σ] in
/-- A turn in a chunk. -/
theorem readTurn_open {s : State σ} (hopen : s.reader.currentChunkSize ≠ 0)
    (hroom : s.bytesRead < s.data.length) : readTurn s = readChunk s := by
  rw [readTurn, if_pos hroom, if_neg hopen]

omit [LawfulReader σ] in
/-- A turn at the beginning of a chunk. -/
theorem readTurn_chunk {s : State σ} {r' : ChunkedReader σ} (hzero : s.reader.currentChunkSize = 0)
    (hroom : s.bytesRead < s.data.length) (hsize : s.reader.getNextChunkSize = some (none, r'))
    (hr' : r'.currentChunkSize ≠ 0) : readTurn s = readChunk { s with reader := r' } := by
  rw [readTurn, if_pos hroom, if_pos hzero, hsize, Option.bind_eq_bind, Option.bind_some]
  dsimp only
  rw [if_neg hr']
  rfl

omit [LawfulReader σ] in
/-- A turn at the last chunk. -/
theorem readTurn_last {s : State σ} {r' r'' : ChunkedReader σ}
    (hzero : s.reader.currentChunkSize = 0) (hroom : s.bytesRead < s.data.length)
    (hsize : s.reader.getNextChunkSize = some (none, r')) (hr' : r'.currentChunkSize = 0)
    (hend : r'.validateEndOfChunk = some (none, r'')) :
    readTurn s = some (.done (⟨s.bytesRead, none⟩, s.data, r'')) := by
  rw [readTurn, if_pos hroom, if_pos hzero, hsize, Option.bind_eq_bind, Option.bind_some]
  dsimp only
  rw [if_pos hr', hend]
  rfl

/-- A turn goes on in the body, or comes to its end. -/
theorem readTurn_at (h : Steady P) (hwhole : Whole P Q) (hlast : IsZero last) {s : State σ}
    (hs : s.reader.At P Q last rest left cs) (hroom : s.bytesRead < s.data.length)
    (hd : Delivers D (left ++ bodyData cs) data₀ s.data s.bytesRead) :
    (∃ s' left' cs', readTurn s = some (.next s') ∧ s'.reader.At P Q last rest left' cs' ∧
      Delivers D (left' ++ bodyData cs') data₀ s'.data s'.bytesRead ∧
      (Reader.content s'.reader.parent).length < (Reader.content s.reader.parent).length) ∨
    (left = [] ∧ cs = [] ∧ ∃ p, readTurn s = some (.done (⟨s.bytesRead, none⟩, s.data, ⟨p, 0⟩)) ∧
      (Q rest → Reader.content p = rest)) := by
  by_cases hleft : left = []
  · subst hleft
    cases cs with
    | nil =>
      -- The last chunk, and with it the end of the body.
      right
      obtain ⟨p₁, hsize, hp₁, hrest₁⟩ := getNextChunkSize_last h hlast hs
      obtain ⟨k, span, p, hread, -, -, -, hrest, hend⟩ :=
        validateEndOfChunk_eq h (r := ⟨p₁, 0⟩) hp₁ hrest₁
      refine ⟨rfl, rfl, p, readTurn_last hs.size hroom hsize rfl hend, fun hq => ?_⟩
      obtain rfl := hwhole hp₁ hq hrest₁ hread
      exact hrest
    | cons c cs =>
      -- The size of the next chunk, and some of its data.
      left
      obtain ⟨r', hsize, hr', hlt⟩ := getNextChunkSize_at h hs
      have hpos := List.length_pos_iff.2 c.data_ne_nil
      rw [readTurn_chunk hs.size hroom hsize (by rw [hr'.size]; omega)]
      obtain ⟨s', left', hturn, hs', hd', hlt'⟩ :=
        readChunk_at h hwhole (s := { s with reader := r' }) hr' c.data_ne_nil hroom
          (by rwa [List.nil_append, bodyData_cons] at hd)
      exact ⟨s', left', cs, hturn, hs', hd', hlt'.trans hlt⟩
  · -- More of the chunk that was begun.
    left
    rw [readTurn_open (hs.size ▸ (List.length_pos_iff.2 hleft).ne') hroom]
    obtain ⟨s', left', hturn, hs', hd', hlt⟩ := readChunk_at h hwhole hs hleft hroom hd
    exact ⟨s', left', cs, hturn, hs', hd', hlt⟩

/-- A read delivers the data in front, and as much of it as there is: all that was asked for, with
    the rest of the body still to be read, or else all that is left, up to the end of the body. -/
theorem read_at (h : Steady P) (hwhole : Whole P Q) (hlast : IsZero last) {r : ChunkedReader σ}
    (hr : r.At P Q last rest left cs) (hD : left ++ bodyData cs = D) (data : Bytes) :
    ∃ data' r', r.read data = some (⟨min data.length D.length, none⟩, data', r') ∧
      data'.take (min data.length D.length) = D.take data.length ∧
      (data.length ≤ D.length → ∃ left' cs', r'.At P Q last rest left' cs' ∧
        left' ++ bodyData cs' = D.drop data.length) ∧
      (D.length < data.length → Q rest → Reader.content r'.parent = rest) := by
  obtain ⟨⟨res, data', r'⟩, hrun, hpost⟩ := Loop.run_total
    (fun s : State σ => ∃ left cs, s.reader.At P Q last rest left cs ∧
      Delivers D (left ++ bodyData cs) data s.data s.bytesRead)
    (fun q : Result × Bytes × ChunkedReader σ => q.1.err = none ∧
      ((q.1.count = data.length ∧ ∃ left cs, q.2.2.At P Q last rest left cs ∧
        Delivers D (left ++ bodyData cs) data q.2.1 q.1.count) ∨
      (q.1.count < data.length ∧ Delivers D [] data q.2.1 q.1.count ∧
        (Q rest → Reader.content q.2.2.parent = rest))))
    (fun s => (Reader.content s.reader.parent).length) (fun s ⟨left, cs, hs, hd⟩ => by
      by_cases hroom : s.bytesRead < s.data.length
      · rcases readTurn_at h hwhole hlast hs hroom hd with
          ⟨s', left', cs', hturn, hs', hd', hlt⟩ | ⟨rfl, rfl, p, hturn, hend⟩
        · exact .inl ⟨s', hturn, ⟨left', cs', hs', hd'⟩, hlt⟩
        · exact .inr ⟨_, hturn, rfl, .inr ⟨hd.length_span ▸ hroom, hd, hend⟩⟩
      · have hturn : readTurn s = some (.done (⟨s.bytesRead, none⟩, s.data, s.reader)) := by
          rw [readTurn, if_neg hroom]
        refine .inr ⟨_, hturn, rfl, .inl ⟨?_, left, cs, hs, hd⟩⟩
        exact Nat.le_antisymm hd.le_span (hd.length_span ▸ Nat.not_lt.1 hroom))
    (s := ⟨r, 0, data⟩) (n := Reader.fuel r.parent + 1)
    ⟨left, cs, hr, hD ▸ Delivers.refl _ _⟩ (Nat.lt_succ_of_le (h.fuel hr.parent))
  obtain ⟨count, err⟩ := res
  obtain ⟨herr, hpost⟩ := hpost
  dsimp only at herr hpost
  subst herr
  rcases hpost with ⟨rfl, left', cs', hr', hd⟩ | ⟨hlt, hd, hend⟩
  · -- all that was asked for
    have hle := hd.le_content
    rw [min_eq_left hle]
    exact ⟨data', r', hrun, hd.take_span, fun _ => ⟨left', cs', hr', hd.rest⟩,
      fun hlt => absurd hle (Nat.not_le.2 hlt)⟩
  · -- all that is left
    have hcount : count = D.length := by
      have hlen := hd.length_rest
      have hle := hd.le_content
      simp only [List.length_nil] at hlen
      omega
    subst hcount
    rw [min_eq_right hlt.le]
    refine ⟨data', r', hrun, ?_, fun hle => absurd hle (Nat.not_le.2 hlt), fun _ => hend⟩
    rw [hd.take_span, List.take_length, List.take_of_length_le hlt.le]

/-- The results of reads into spans when `n` bytes are left: all that was asked for, as long as there
    is enough. -/
def fullResults (n : ℕ) : List Bytes → List Result
  | [] => []
  | data :: datas => ⟨min data.length n, none⟩ :: fullResults (n - data.length) datas

/-- Reads, up to and including the first one that asks for more than there is, deliver the data. -/
theorem reads_at (h : Steady P) (hwhole : Whole P Q) (hlast : IsZero last) {r : ChunkedReader σ}
    (hr : r.At P Q last rest left cs) (hD : left ++ bodyData cs = D) {datas : List Bytes}
    (hdatas : datas.dropLast.flatten.length ≤ D.length) :
    ∃ r', r.reads datas =
        some (fullResults D.length datas, D.take datas.flatten.length, r') ∧
      (D.length < datas.flatten.length → Q rest → Reader.content r'.parent = rest) := by
  induction datas generalizing r left cs D with
  | nil =>
    exact ⟨r, by simp [reads, fullResults], fun hlt => absurd hlt (Nat.not_lt_zero _)⟩
  | cons data datas ih =>
    obtain ⟨data', r₁, hread, htake, hmore, hend⟩ := read_at h hwhole hlast hr hD data
    cases datas with
    | nil =>
      -- Only the last read may ask for more than there is.
      refine ⟨r₁, ?_, ?_⟩
      · simp [reads, fullResults, hread, htake]
      · simpa using hend
    | cons data₁ datas =>
      rw [List.dropLast_cons_cons, List.flatten_cons, List.length_append] at hdatas
      obtain ⟨left', cs', hr₁, hD₁⟩ := hmore (by omega)
      obtain ⟨r', hreads, hend'⟩ := ih hr₁ hD₁ (by rw [List.length_drop]; omega)
      rw [List.length_drop] at hreads hend'
      refine ⟨r', ?_, fun hlt => hend' ?_⟩
      · rw [reads, hread, Option.bind_eq_bind, Option.bind_some]
        dsimp only
        rw [hreads, htake, fullResults, List.flatten_cons (l := data), List.length_append, List.take_add]
        rfl
      · rw [List.flatten_cons, List.length_append] at hlt
        omega

end Body

end ChunkedReader

/-! ## Written bodies -/

/-- The chunk of a write with data. -/
def Chunk.ofData (data : Bytes) (hne : data ≠ []) (hlt : data.length < 2 ^ 64) : Chunk where
  size := toString data.length
  data := data
  isNumeral := isNumeral_toString _
  value_eq := numeralValue_toString _
  data_ne_nil := hne
  data_lt := hlt

/-- What is written by writes are chunks of their data. -/
theorem exists_chunks {datas : List Bytes}
    (hdatas : ∀ data ∈ datas, data.length ≤ ChunkedWriter.maxChunkSize) :
    ∃ chunks : List Chunk, bodyData chunks = datas.flatten ∧
      (datas.flatMap ChunkedWriter.chunkParts).flatten = chunks.flatMap Chunk.text := by
  induction datas with
  | nil => exact ⟨[], rfl, rfl⟩
  | cons data datas ih =>
    rw [List.forall_mem_cons] at hdatas
    obtain ⟨chunks, hdata, htext⟩ := ih hdatas.2
    by_cases hnil : data = []
    · refine ⟨chunks, ?_, ?_⟩
      · rw [hdata, hnil, List.flatten_cons, List.nil_append]
      · rw [List.flatMap_cons, ChunkedWriter.chunkParts, if_pos hnil, List.nil_append, htext]
    · have hlt : data.length < 2 ^ 64 := hdatas.1.trans_lt (by decide)
      refine ⟨Chunk.ofData data hnil hlt :: chunks, ?_, ?_⟩
      · rw [bodyData_cons, hdata]
        rfl
      · rw [List.flatMap_cons, ChunkedWriter.chunkParts, if_neg hnil, List.flatten_append, htext,
          List.flatMap_cons]
        simp [Chunk.text, Chunk.ofData]

/-- What is written in chunks, on a parent that accepts every write in full, is read back, from a
    parent that fills every read as long as there is enough: by every sequence of reads up to and
    including the first one that asks for more than there is. Then the parent is behind the last
    chunk. -/
theorem reads_writes {ω σ : Type*} [Writer ω Byte ErrorCondition] [LawfulWriter ω]
    [AcceptingWriter ω] [Reader σ Byte ErrorCondition] [LawfulReader σ] [FillingReader σ] (w : ω)
    (hw : AcceptingWriter.Accepting w) (datas : List Bytes)
    (hdatas : ∀ data ∈ datas, data.length ≤ 99999999) :
    ∃ w' body, (ChunkedWriter.new w).writes datas = some (datas.map (⟨·.length, none⟩), w') ∧
      Writer.output w'.parent = Writer.output w ++ body ∧
      ∀ (s : σ) (rest : Bytes), FillingReader.Filling s →
        Reader.content s = body ++ sv "0\r\n\r\n" ++ rest →
        ∀ spans : List Bytes, spans.dropLast.flatten.length ≤ datas.flatten.length →
          datas.flatten.length < spans.flatten.length →
          ∃ r, (ChunkedReader.new s).reads spans =
              some (ChunkedReader.fullResults datas.flatten.length spans, datas.flatten, r) ∧
            Reader.content r.parent = rest := by
  obtain ⟨chunks, hdata, htext⟩ := exists_chunks hdatas
  obtain ⟨results, w', hwrites, rfl, hwrote⟩ :=
    ChunkedWriter.writes_accepting (w := ChunkedWriter.new w) hw hdatas
  refine ⟨w', chunks.flatMap Chunk.text, hwrites, htext ▸ hwrote.output_eq,
    fun s rest hs hc spans hspans hlt => ?_⟩
  have hlast : sv "0\r\n\r\n" = sv "0" ++ crlf ++ crlf := by decide
  have hbody : Reader.content s = bodyText (sv "0") chunks ++ rest := by rw [hc, hlast, bodyText]
  obtain ⟨r, hreads, hend⟩ := ChunkedReader.reads_at steady_filling ChunkedReader.whole_filling (by decide)
    (ChunkedReader.at_new hs hbody) (hdata : [] ++ _ = _) hspans
  rw [List.take_of_length_le hlt.le] at hreads
  exact ⟨r, hreads, hend hlt trivial⟩

/-- Writes of 3, 0 and 1 bytes, and reads of 2 and 3. -/
theorem reads_writes_four :
    ∃ w r, (ChunkedWriter.new Sink.empty).writes [[1, 2, 3], [], [4]] =
        some ([⟨3, none⟩, ⟨0, none⟩, ⟨1, none⟩], w) ∧
      (ChunkedReader.new (⟨w.parent.received ++ sv "0\r\n\r\n" ++ [7], [], none⟩ : Source)).reads
          [[0, 0], [0, 0, 0]] = some ([⟨2, none⟩, ⟨2, none⟩], [1, 2, 3, 4], r) ∧
      r.parent.pending = [7] := by
  obtain ⟨w, body, hwrites, hbody, hreads⟩ := reads_writes (σ := Source) Sink.empty rfl
    [[1, 2, 3], [], [4]] (by decide)
  obtain ⟨r, hreads, hrest⟩ := hreads ⟨w.parent.received ++ sv "0\r\n\r\n" ++ [7], [], none⟩ [7] rfl
    (congrArg (· ++ _ ++ _) hbody) [[0, 0], [0, 0, 0]] (by decide) (by decide)
  exact ⟨w, r, hwrites, hreads, hrest⟩

end Cppnet.Http
