import Cppnet.Http.Segmentation
import Cppnet.Http.Text

/-!
# Sizes of chunks

In HTTP/1.1 the size of a chunk is a hexadecimal numeral; a `chunked_reader` takes it for a decimal
one. Both have the same value if and only if it is at most 9. Else there is a digit that is not a
decimal one, which is an error, or the decimal value is the smaller one, by 6 at least
(`decimal_lt_hex`): then data is taken for the end of the chunk, which is an error unless it looks
like one (`returns_of_large_size`).

So a chunked request with chunks of given sizes is read, whatever its data, if and only if no size
is more than 9, and no end of a chunk is split (`requestDecode_chunked_iff`).
-/

namespace Cppnet.Http

open Lib Io Util

/-! ## Hexadecimal numerals -/

/-- A non-empty string of hexadecimal digits. -/
def IsHexNumeral (s : Bytes) : Prop := s ≠ [] ∧ ∀ c ∈ s, (digit 16 c).isSome

instance (s : Bytes) : Decidable (IsHexNumeral s) := inferInstanceAs (Decidable (_ ∧ _))

/-- The value of a hexadecimal numeral. -/
def hexValue (s : Bytes) : ℕ := numeralValue 16 (digits 16 s)

/-- The decimal digits are those of the hexadecimal ones below 10. -/
theorem digit_ten_eq_some_iff {c : Byte} {d : ℕ} :
    digit 10 c = some d ↔ digit 16 c = some d ∧ d ≤ 9 := by
  simp only [digit, Option.filter_eq_some_iff, decide_eq_true_eq]
  constructor
  · rintro ⟨hv, hd⟩
    exact ⟨⟨hv, by omega⟩, by omega⟩
  · rintro ⟨⟨hv, -⟩, hd⟩
    exact ⟨hv, by omega⟩

/-- The value does not get smaller by more digits. -/
theorem le_foldl_hex (ds : List ℕ) (v : ℕ) : v ≤ ds.foldl (fun v d => 16 * v + d) v := by
  induction ds generalizing v with
  | nil => exact le_rfl
  | cons d ds ih => exact (by omega : v ≤ 16 * v + d).trans (ih _)

/-- A hexadecimal numeral of at most 9 is a decimal one of the same value. -/
theorem decimal_of_hex_le {s : Bytes} (hs : ∀ c ∈ s, (digit 16 c).isSome) {v : ℕ}
    (h : (digits 16 s).foldl (fun v d => 16 * v + d) v ≤ 9) :
    (∀ c ∈ s, (digit 10 c).isSome) ∧ (digits 10 s).foldl (fun v d => 10 * v + d) v =
      (digits 16 s).foldl (fun v d => 16 * v + d) v := by
  induction s generalizing v with
  | nil => exact ⟨List.forall_mem_nil _, rfl⟩
  | cons c s ih =>
    rw [List.forall_mem_cons] at hs
    obtain ⟨d, hd⟩ := Option.isSome_iff_exists.1 hs.1
    rw [digits_cons hd] at h ⊢
    have hle : 16 * v + d ≤ 9 := (le_foldl_hex _ _).trans h
    obtain rfl : v = 0 := by omega
    obtain ⟨hdec, heq⟩ := ih hs.2 h
    have hd' : digit 10 c = some d := digit_ten_eq_some_iff.2 ⟨hd, by omega⟩
    rw [digits_cons hd']
    refine ⟨List.forall_mem_cons.2 ⟨by rw [hd']; rfl, hdec⟩, ?_⟩
    simpa using heq

/-- Of a numeral of decimal digits, both values are the same digit, or the hexadecimal one is the
    larger one. -/
theorem decimal_lt_hex {s : Bytes} (hs : ∀ c ∈ s, (digit 10 c).isSome) {v w : ℕ}
    (hvw : (v = w ∧ w ≤ 9) ∨ v + 6 ≤ w)
    (h : 9 < (digits 16 s).foldl (fun v d => 16 * v + d) w) :
    (digits 10 s).foldl (fun v d => 10 * v + d) v + 6 ≤
      (digits 16 s).foldl (fun v d => 16 * v + d) w := by
  induction s generalizing v w with
  | nil =>
    simp only [digits, List.foldl_nil] at h ⊢
    omega
  | cons c s ih =>
    rw [List.forall_mem_cons] at hs
    obtain ⟨d, hd⟩ := Option.isSome_iff_exists.1 hs.1
    obtain ⟨hd', hle⟩ := digit_ten_eq_some_iff.1 hd
    rw [digits_cons hd'] at h ⊢
    rw [digits_cons hd]
    exact ih hs.2 (by dsimp only; omega) h

/-- The first digit that is not a decimal one, if there is any. -/
theorem exists_first_letter {s : Bytes} (h : ¬∀ c ∈ s, (digit 10 c).isSome) :
    ∃ pre c post, s = pre ++ c :: post ∧ (∀ d ∈ pre, (digit 10 d).isSome) ∧ digit 10 c = none := by
  induction s with
  | nil => exact absurd (List.forall_mem_nil _) h
  | cons c s ih =>
    by_cases hc : (digit 10 c).isSome
    · obtain ⟨pre, c', post, rfl, hpre, hc'⟩ := ih fun hs => h (List.forall_mem_cons.2 ⟨hc, hs⟩)
      exact ⟨c :: pre, c', post, rfl, List.forall_mem_cons.2 ⟨hc, hpre⟩, hc'⟩
    · exact ⟨[], c, s, rfl, List.forall_mem_nil _, Option.not_isSome_iff_eq_none.1 hc⟩

/-! ## Sizes of more than 9 -/

namespace ChunkedReader

variable {σ : Type*} [Reader σ Byte ErrorCondition] [LawfulReader σ] {P : σ → Prop}

/-- Decimal digits, and one that is not. -/
theorem run_sizeTurn_letter (h : Steady P) {r : ChunkedReader σ} {v : ℕ} (hr : P r.parent)
    (hv : r.currentChunkSize = v % 2 ^ 64) {pre rest : Bytes} {c : Byte}
    (hpre : ∀ d ∈ pre, (digit 10 d).isSome) (hc : digit 10 c = none) (hcr : c ≠ 13)
    (hcontent : Reader.content r.parent = pre ++ c :: rest) {n : ℕ} (hn : pre.length < n) :
    ∃ r', Loop.run sizeTurn n r = some (some (.errc .illegalByteSequence), r') := by
  obtain ⟨m, rfl⟩ : ∃ m, n = m + 1 + pre.length := ⟨n - 1 - pre.length, by omega⟩
  obtain ⟨p, hrun, hp, hrest⟩ := run_sizeTurn_digits h hpre hr hv hcontent (m + 1)
  obtain ⟨r', hturn⟩ := sizeTurn_illegal h (r := ⟨p, _⟩) hp hrest hc hcr
  exact ⟨r', hrun.trans (Loop.run_succ_done hturn)⟩

/-- A size with a digit that is not a decimal one. -/
theorem getNextChunkSize_letter (h : Steady P) {r : ChunkedReader σ} (hr : P r.parent)
    {pre rest : Bytes} {c : Byte} (hpre : ∀ d ∈ pre, (digit 10 d).isSome) (hc : digit 10 c = none)
    (hcr : c ≠ 13) (hcontent : Reader.content r.parent = pre ++ c :: rest) :
    ∃ r', r.getNextChunkSize = some (some (.errc .illegalByteSequence), r') := by
  refine run_sizeTurn_letter h (r := { r with currentChunkSize := 0 }) (v := 0) hr rfl hpre hc hcr hcontent ?_
  have hfuel := h.fuel hr
  rw [hcontent, List.length_append] at hfuel
  omega

/-- A chunk of more than 9 bytes, none of which looks like an end of line: its size, or else its end,
    is an error. -/
theorem returns_of_large_size (h : Steady P) {s : State σ} {size tail D more data₀ : Bytes}
    {b : Byte} (hb : b ≠ 13 ∧ b ≠ 10) (hsize : IsHexNumeral size) (hlarge : 9 < hexValue size)
    (hs : P s.reader.parent) (hzero : s.reader.currentChunkSize = 0)
    (hc : Reader.content s.reader.parent =
      size ++ (crlf ++ (List.replicate (hexValue size) b ++ tail)))
    (hroom : D.length < data₀.length)
    (hd : Delivers D (List.replicate (hexValue size) b ++ more) data₀ s.data s.bytesRead) :
    ∃ q, Loop.Returns readTurn s q ∧ q.1.err = some (.errc .illegalByteSequence) := by
  have hle := hd.le_content
  have hlen := hd.length_span
  have hmore : s.bytesRead < s.data.length := by omega
  by_cases hdec : ∀ c ∈ size, (digit 10 c).isSome
  · -- the size is read as a smaller one, and the data behind as the end of the chunk
    obtain ⟨p, hnext, hp, hrest⟩ := getNextChunkSize_eq h ⟨hsize.1, hdec⟩ hs hc
    set n := numeralValue 10 (digits 10 size) % 2 ^ 64 with hn
    have hlt : n + 6 ≤ hexValue size :=
      (Nat.add_le_add_right (Nat.mod_le _ _) 6).trans
        (decimal_lt_hex hdec (.inl ⟨rfl, Nat.zero_le 9⟩) hlarge)
    obtain ⟨m, hm⟩ : ∃ m, hexValue size = n + (m + 2) := ⟨hexValue size - n - 2, by omega⟩
    have hdata : ∀ T : Bytes, List.replicate (hexValue size) b ++ T =
        List.replicate n b ++ (b :: b :: (List.replicate m b ++ T)) := fun T => by
      rw [hm, List.replicate_add, List.append_assoc]
      rfl
    rw [hdata] at hrest hd
    by_cases hn0 : n = 0
    · rw [hn0] at hrest hnext
      obtain ⟨r', hvalid⟩ := validateEndOfChunk_illegal h (r := ⟨p, 0⟩) hp hrest hb.1 hb.2
      refine ⟨_, .done (r := (⟨s.bytesRead, some (.errc .illegalByteSequence)⟩, s.data, r')) ?_, rfl⟩
      rw [readTurn, if_pos hmore, if_pos hzero, hnext, Option.bind_eq_bind, Option.bind_some]
      dsimp only
      rw [if_pos rfl, hvalid]
      rfl
    · have hne : List.replicate n b ≠ [] := by simpa using hn0
      obtain ⟨s', q, k, data, hreach, hturn, hq, hcq, -⟩ :=
        reaches_end h (readTurn_chunk hzero hmore hnext hn0) hp List.length_replicate.symm hne hrest
          hroom hd
      obtain ⟨r', hvalid⟩ := validateEndOfChunk_illegal h (r := ⟨q, 0⟩) hq hcq hb.1 hb.2
      rw [hvalid] at hturn
      exact ⟨_, hreach.returns (.done hturn), rfl⟩
  · obtain ⟨pre, c, post, rfl, hpre, hletter⟩ := exists_first_letter hdec
    have hcr : c ≠ 13 := by
      rintro rfl
      exact absurd (hsize.2 13 (by simp)) (by decide)
    rw [List.append_assoc, List.cons_append] at hc
    obtain ⟨r', hnext⟩ := getNextChunkSize_letter h hs hpre hletter hcr hc
    refine ⟨_, .done (r := (⟨s.bytesRead, some (.errc .illegalByteSequence)⟩, s.data, r')) ?_, rfl⟩
    rw [readTurn, if_pos hmore, if_pos hzero, hnext]
    rfl

end ChunkedReader

/-! ## Chunked requests -/

/-- The text of a chunk, given its size and its data. -/
def wireChunk (c : Bytes × Bytes) : Bytes := c.1 ++ crlf ++ (c.2 ++ crlf)

/-- A source of a request, chunks, a last one of the size `last`, and what is behind. -/
def wireSource (t : RequestText) (chunks : List (Bytes × Bytes)) (last rest : Bytes)
    (script : List ReadEvent) (endErr : Option ErrorCondition) : Source :=
  ⟨t.text ++ ((chunks.map wireChunk).flatten ++ (last ++ crlf ++ crlf ++ rest)), script, endErr⟩

/-- Each size is that of its data. -/
def SizesOf (sizes datas : List Bytes) : Prop :=
  List.Forall₂ (fun size data => data.length = hexValue size) sizes datas

/-- A hexadecimal zero is a decimal one. -/
theorem isZero_of_hex {last : Bytes} (hlast : IsHexNumeral last) (h : hexValue last = 0) :
    IsZero last := by
  obtain ⟨hdec, heq⟩ := decimal_of_hex_le hlast.2 (v := 0) (h.trans_le (Nat.zero_le 9))
  exact ⟨⟨hlast.1, hdec⟩, heq.trans h⟩

/-- Chunks of at most 9 bytes are read with the size they are sent with. -/
theorem exists_chunks_of_le {sizes datas : List Bytes} (h : SizesOf sizes datas)
    (hsizes : ∀ size ∈ sizes, IsHexNumeral size ∧ 0 < hexValue size)
    (hle : ∀ size ∈ sizes, hexValue size ≤ 9) :
    ∃ chunks : List Chunk, chunks.map Chunk.text = (sizes.zip datas).map wireChunk ∧
      bodyData chunks = datas.flatten := by
  induction h with
  | nil => exact ⟨[], rfl, rfl⟩
  | @cons size data sizes datas hdata _ ih =>
    rw [List.forall_mem_cons] at hsizes hle
    obtain ⟨chunks, htexts, hbody⟩ := ih hsizes.2 hle.2
    obtain ⟨hdec, heq⟩ := decimal_of_hex_le hsizes.1.1.2 (v := 0) hle.1
    have hvalue : numeralValue 10 (digits 10 size) = data.length := heq.trans hdata.symm
    have hpos : 0 < data.length := hdata ▸ hsizes.1.2
    have hlt : data.length < 2 ^ 64 := by
      rw [hdata]
      exact hle.1.trans_lt (by decide)
    refine ⟨⟨size, data, ⟨hsizes.1.1.1, hdec⟩, hvalue, List.ne_nil_of_length_pos hpos, hlt⟩ :: chunks,
      ?_, ?_⟩
    · rw [List.map_cons, htexts]
      rfl
    · rw [bodyData_cons, hbody]
      rfl

/-- `request_decode` of a chunked request: the body is read from behind it. -/
theorem requestDecode_chunked {t : RequestText} (ht : t.IsChunked) {s : Source} (hs : s.Clean)
    {rest : Bytes} (hpending : s.pending = t.text ++ rest) {capacity : ℕ} (hcap : 0 < capacity)
    {maxHeaderBytes : ℕ} (hmax : linesLength t.lines < maxHeaderBytes) :
    ∃ p, p.Serving s capacity ∧ Reader.content p = rest ∧
      requestDecode (.new s capacity) maxHeaderBytes = some (.ok (t.request, .chunked (.new p))) := by
  have hready : (BufferedReader.new s capacity).Ready :=
    BufferedReader.ready_new (PromptReader.prompt_of_clean hs) hcap
  obtain ⟨p, hp, hc, ⟨bs, htakes⟩, hdecode⟩ := t.decode hready hpending hmax
  rw [ht.messageBody] at hdecode
  exact ⟨p, htakes.serving hs hp, hc, hdecode⟩

/-- Chunks of the given sizes, with the byte `b` for all data. -/
def fillData (b : Byte) (sizes : List Bytes) : List Bytes :=
  sizes.map fun size => List.replicate (hexValue size) b

theorem sizesOf_fillData (b : Byte) (sizes : List Bytes) : SizesOf sizes (fillData b sizes) := by
  rw [SizesOf, fillData, List.forall₂_map_right_iff, List.forall₂_same]
  exact fun size _ => List.length_replicate

theorem zip_fillData_append (b : Byte) (pre : List Bytes) (size : Bytes) (post : List Bytes) :
    (pre ++ size :: post).zip (fillData b (pre ++ size :: post)) =
      pre.zip (fillData b pre) ++
        (size, List.replicate (hexValue size) b) :: post.zip (fillData b post) := by
  rw [fillData, List.map_append, List.zip_append (by simp)]
  rfl

/-- A chunk of more than 9 bytes among others, with data that does not look like an end of line: the
    read of all data returns an error. -/
theorem returns_of_large_chunk {p : BufferedReader Source} {s : Source} {capacity : ℕ}
    (hp : p.Serving s capacity) {pre post : List Bytes} {size tail : Bytes} {b : Byte}
    (hb : b ≠ 13 ∧ b ≠ 10) (hpre : ∀ size ∈ pre, IsHexNumeral size ∧ 0 < hexValue size)
    (hle : ∀ size ∈ pre, hexValue size ≤ 9) (hsize : IsHexNumeral size) (hlarge : 9 < hexValue size)
    (hc : Reader.content p = (((pre ++ size :: post).zip
      (fillData b (pre ++ size :: post))).map wireChunk).flatten ++ tail)
    {data : Bytes} (hroom : (fillData b (pre ++ size :: post)).flatten.length < data.length) :
    ∃ q, Loop.Returns ChunkedReader.readTurn ⟨.new p, 0, data⟩ q ∧
      q.1.err = some (.errc .illegalByteSequence) := by
  obtain ⟨chunks, htexts, hbody⟩ := exists_chunks_of_le (sizesOf_fillData b pre) hpre hle
  have hD : (fillData b (pre ++ size :: post)).flatten =
      bodyData chunks ++ (List.replicate (hexValue size) b ++ (fillData b post).flatten) := by
    rw [hbody, fillData, List.map_append, List.flatten_append, List.map_cons, List.flatten_cons]
    rfl
  rw [zip_fillData_append, List.map_append, List.flatten_append, ← htexts, List.map_cons,
    List.flatten_cons, List.append_assoc, List.append_assoc] at hc
  rw [hD] at hroom
  obtain ⟨-, herr⟩ | ⟨-, p', n, data', hreach, hp', hc', hd⟩ :=
    ChunkedReader.reaches_chunks (s := ⟨ChunkedReader.new p, 0, data⟩) hp rfl hc hroom (.refl _ data)
  · exact herr
  · rw [wireChunk, List.append_assoc, List.append_assoc, List.append_assoc] at hc'
    obtain ⟨q, hret, herr⟩ := ChunkedReader.returns_of_large_size
      (BufferedReader.steady_serving s capacity) (s := ⟨⟨p', 0⟩, n, data'⟩) hb hsize hlarge hp' rfl
      hc' hroom hd
    exact ⟨q, hreach.returns hret, herr⟩

/-- `request_decode` finds the request `t` in front of the source, with a body in chunks, and every
    sequence of reads of the body, up to and including the first one that asks for more than there
    is, delivers the data `D` without an error. -/
def RequestText.Delivers (t : RequestText) (s : Source) (capacity maxHeaderBytes : ℕ) (D : Bytes) :
    Prop :=
  ∃ r, requestDecode (.new s capacity) maxHeaderBytes = some (.ok (t.request, .chunked r)) ∧
    ∀ spans : List Bytes, spans.dropLast.flatten.length ≤ D.length →
      ∃ r', r.reads spans = some (ChunkedReader.fullResults D.length spans,
        D.take spans.flatten.length, r')

/-- It does not if a read of all data, and of one byte more, returns an error. -/
theorem RequestText.not_delivers {t : RequestText} {s : Source} {capacity maxHeaderBytes : ℕ}
    {p : BufferedReader Source} {D : Bytes}
    {q : Result × Bytes × ChunkedReader (BufferedReader Source)} {e : ErrorCondition}
    (hreq : requestDecode (.new s capacity) maxHeaderBytes =
      some (.ok (t.request, .chunked (.new p))))
    (hret : Loop.Returns ChunkedReader.readTurn ⟨.new p, 0, List.replicate (D.length + 1) 0⟩ q)
    (herr : q.1.err = some e) : ¬t.Delivers s capacity maxHeaderBytes D := by
  rintro ⟨r, hreq', hreads⟩
  cases hreq.symm.trans hreq'
  obtain ⟨r', hread⟩ := hreads [List.replicate (D.length + 1) 0] (Nat.zero_le _)
  exact ChunkedReader.reads_ne_of_returns hret herr r' hread

/-- For a chunked request with chunks of given sizes, sent in given segments: the body delivers the
    data, whatever it is, if and only if no size is more than 9 and no end of a chunk is split. -/
theorem requestDecode_chunked_iff (t : RequestText) (ht : t.IsChunked) (sizes : List Bytes)
    (hsizes : ∀ size ∈ sizes, IsHexNumeral size ∧ 0 < hexValue size) (last : Bytes)
    (hlast : IsHexNumeral last ∧ hexValue last = 0) (rest : Bytes) (script : List ReadEvent)
    (hscript : ∀ ev ∈ script, 0 < ev.count ∧ ev.err = none) (endErr : Option ErrorCondition)
    (capacity : ℕ) (hcap : 0 < capacity) (maxHeaderBytes : ℕ)
    (hmax : linesLength t.lines < maxHeaderBytes) :
    (∀ datas, SizesOf sizes datas →
      t.Delivers (wireSource t (sizes.zip datas) last rest script endErr) capacity maxHeaderBytes
        datas.flatten) ↔
      (∀ size ∈ sizes, hexValue size ≤ 9) ∧ ∀ datas, SizesOf sizes datas →
        ChunkedReader.Unsplit (wireSource t (sizes.zip datas) last rest script endErr) capacity
          (last ++ crlf ++ crlf ++ rest) ((sizes.zip datas).map wireChunk) := by
  have hdecode : ∀ datas, ∃ p,
      p.Serving (wireSource t (sizes.zip datas) last rest script endErr) capacity ∧
      Reader.content p =
        ((sizes.zip datas).map wireChunk).flatten ++ (last ++ crlf ++ crlf ++ rest) ∧
      requestDecode (.new (wireSource t (sizes.zip datas) last rest script endErr) capacity)
        maxHeaderBytes = some (.ok (t.request, .chunked (.new p))) := fun datas =>
    requestDecode_chunked ht (s := wireSource t (sizes.zip datas) last rest script endErr) hscript rfl
      hcap hmax
  have hroom : ∀ D : Bytes, D.length < (List.replicate (D.length + 1) (0 : Byte)).length := fun D => by
    rw [List.length_replicate]
    exact Nat.lt_succ_self _
  constructor
  · intro h
    have hle : ∀ size ∈ sizes, hexValue size ≤ 9 := by
      intro size hsize
      by_contra hlarge
      -- the first size of more than 9, with data that does not look like an end of line
      obtain ⟨size, hfind⟩ : ∃ size, sizes.find? (9 < hexValue ·) = some size :=
        Option.isSome_iff_exists.1 (List.find?_isSome.2 ⟨size, hsize, by simpa using hlarge⟩)
      obtain ⟨hlarge, pre, post, rfl, hpre⟩ := List.find?_eq_some_iff_append.1 hfind
      obtain ⟨p, hp, hc, hreq⟩ := hdecode (fillData (ch 'x') (pre ++ size :: post))
      obtain ⟨q, hret, herr⟩ := returns_of_large_chunk hp (by decide)
        (fun size hsize => hsizes size (List.mem_append_left _ hsize))
        (fun size hsize => by simpa using hpre size hsize)
        (hsizes size (by simp)).1 (of_decide_eq_true hlarge) hc (hroom _)
      exact RequestText.not_delivers hreq hret herr (h _ (sizesOf_fillData _ _))
    refine ⟨hle, fun datas hdatas => ?_⟩
    obtain ⟨p, hp, hc, hreq⟩ := hdecode datas
    obtain ⟨chunks, htexts, hbody⟩ := exists_chunks_of_le hdatas hsizes hle
    rw [← htexts] at hc ⊢
    have hroom' := hroom datas.flatten
    rw [← hbody, ← List.append_nil (bodyData chunks)] at hroom'
    obtain ⟨-, q, hret, herr⟩ | ⟨hunsplit, -⟩ := ChunkedReader.reaches_chunks (s := ⟨.new p, 0, _⟩)
      hp rfl hc hroom' (.refl _ _)
    · rw [List.append_nil, hbody] at hret
      exact absurd (h datas hdatas) (RequestText.not_delivers hreq hret herr)
    · exact hunsplit
  · rintro ⟨hle, hunsplit⟩ datas hdatas
    obtain ⟨p, hp, hc, hreq⟩ := hdecode datas
    obtain ⟨chunks, htexts, hbody⟩ := exists_chunks_of_le hdatas hsizes hle
    refine ⟨_, hreq, fun spans hspans => ?_⟩
    rw [← hbody] at hspans ⊢
    rw [← htexts, ← List.append_assoc] at hc
    exact ChunkedReader.reads_unsplit hp (isZero_of_hex hlast.1 hlast.2) hc
      (htexts ▸ hunsplit datas hdatas) hspans

/-- The text of a chunked request. -/
def RequestText.postChunked : RequestText where
  method := .post
  target := sv "/a"
  uri := { path := sv "/a" }
  major := sv "1"
  minor := sv "1"
  fields := [(sv "Transfer-Encoding", sv "chunked")]
  method_ne_none := by decide
  target_space := by decide
  target_crlf := by decide
  target_uri := by decide
  major_isNumber := isNumber_one
  minor_isNumber := isNumber_one
  fields_colon := by decide
  fields_crlf := by decide

theorem RequestText.postChunked_isChunked : postChunked.IsChunked :=
  ⟨_, List.mem_singleton_self _, sv "chunked", by decide, by decide⟩

/-- A chunk of two bytes, on a reader of one byte. -/
theorem requestDecode_chunked_iff_two :
    RequestText.postChunked.Delivers
      (wireSource .postChunked [(sv "2", sv "ab")] (sv "0") [] [] none) 1 64 (sv "ab") :=
  (requestDecode_chunked_iff .postChunked RequestText.postChunked_isChunked [sv "2"] (by decide) (sv "0")
    (by decide) [] [] (by decide) none 1 (by decide) 64 (by decide)).2
    ⟨by decide, fun _ _ hcap => absurd hcap (by decide)⟩ [sv "ab"] (.cons rfl .nil)

/-- A chunk of ten bytes. -/
theorem requestDecode_chunked_ten :
    IsHexNumeral (sv "a") ∧ SizesOf [sv "a"] [sv "xxxxxxxxxx"] ∧
      ¬RequestText.postChunked.Delivers
        (wireSource .postChunked [(sv "a", sv "xxxxxxxxxx")] (sv "0") [] [] none) 64 64
        (sv "xxxxxxxxxx") := by
  refine ⟨by decide, .cons rfl .nil, ?_⟩
  obtain ⟨p, hp, hc, hreq⟩ := requestDecode_chunked RequestText.postChunked_isChunked
    (s := wireSource .postChunked [(sv "a", sv "xxxxxxxxxx")] (sv "0") [] [] none) (by decide) rfl
    (show 0 < 64 by decide) (show _ < 64 by decide)
  obtain ⟨q, hret, herr⟩ := returns_of_large_chunk hp (b := ch 'x') (by decide) (List.forall_mem_nil _)
    (List.forall_mem_nil _) (show IsHexNumeral (sv "a") by decide) (show 9 < _ by decide) hc
    (show (fillData (ch 'x') [sv "a"]).flatten.length < (List.replicate 11 (0 : Byte)).length by decide)
  exact RequestText.not_delivers hreq hret herr

end Cppnet.Http
