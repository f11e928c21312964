import Cppnet.Http.Chunks

/-!
# Behind the last chunk

A `chunked_reader` keeps what is left of the chunk it is in, and nothing else: behind the last chunk of a body it is
in the same state as behind any other one, and the next read looks for the size of a chunk again. So it takes from
its parent what belongs to the next message, as long as there is anything (`reads_behind_iff`).

Whatever a reader does to its parent are reads (`read_readsTo`), and the first one, where a chunk is to begin, is
that of one byte (`read_first`).
-/

namespace Cppnet.Http

open Lib Io

namespace ChunkedReader

/-! ## What a reader does to its parent -/

section Inversion

variable {σ : Type*} [Reader σ Byte ErrorCondition] {r r' : ChunkedReader σ} {s : State σ}

/-- Where a turn of `get_next_chunk_size` leaves the parent. -/
def sizeParent : Turn (ChunkedReader σ) (Option ErrorCondition × ChunkedReader σ) → σ
  | .next r => r.parent
  | .done q => q.2.parent

/-- Where a turn of `read` leaves the parent. -/
def turnParent : Turn (State σ) (Result × Bytes × ChunkedReader σ) → σ
  | .next s => s.reader.parent
  | .done q => q.2.2.parent

theorem sizeTurn_first {t : Turn (ChunkedReader σ) (Option ErrorCondition × ChunkedReader σ)}
    (h : sizeTurn r = some t) :
    ∃ res d p, Reader.read r.parent [0] = some (res, d, p) ∧ ReadsTo p (sizeParent t) := by
  obtain ⟨⟨res, d, p⟩, hread, h⟩ := Option.bind_eq_some_iff.1 h
  refine ⟨res, d, p, hread, ?_⟩
  dsimp only at h
  split_ifs at h
  · cases h
    exact .refl p
  · cases h
    exact .refl p
  · obtain ⟨⟨res', d', p'⟩, hread', h⟩ := Option.bind_eq_some_iff.1 h
    dsimp only at h
    split_ifs at h <;> cases h <;> exact readsTo_of_read hread'
  · cases h
    exact .refl p

/-- `get_next_chunk_size` starts with a read of one byte. -/
theorem getNextChunkSize_first {err : Option ErrorCondition} (h : r.getNextChunkSize = some (err, r')) :
    ∃ res d p, Reader.read r.parent [0] = some (res, d, p) ∧ ReadsTo p r'.parent := by
  have hret := Loop.returns_of_run h
  generalize hr₀ : ({ r with currentChunkSize := 0 } : ChunkedReader σ) = r₀ at hret
  have hparent : r.parent = r₀.parent := by rw [← hr₀]
  rw [hparent]
  cases hret with
  | done hturn => exact sizeTurn_first hturn
  | @next _ r₁ _ hturn hret =>
    obtain ⟨res, d, p, hread, hfirst⟩ := sizeTurn_first hturn
    refine ⟨res, d, p, hread, hfirst.trans ?_⟩
    refine hret.invariant (fun r : ChunkedReader σ => ReadsTo r₁.parent r.parent)
      (fun q : Option ErrorCondition × ChunkedReader σ => ReadsTo r₁.parent q.2.parent) ?_ ?_ (.refl _)
    all_goals
      intro r₂ t hr₂ hturn
      obtain ⟨res, d, p, hread, hrest⟩ := sizeTurn_first hturn
      exact hr₂.trans ((readsTo_of_read hread).trans hrest)

theorem validateEndOfChunk_readsTo {err : Option ErrorCondition} (h : r.validateEndOfChunk = some (err, r')) :
    ReadsTo r.parent r'.parent ∧ r'.currentChunkSize = r.currentChunkSize := by
  obtain ⟨⟨res, d, p⟩, hread, h⟩ := Option.bind_eq_some_iff.1 h
  dsimp only at h
  split_ifs at h <;> cases h <;> exact ⟨readsTo_of_read hread, rfl⟩

/-- What a turn does in a chunk: a read of the parent, with an error or not, and the end of the chunk, if it comes to
    it. -/
theorem readChunk_inv {t : Turn (State σ) (Result × Bytes × ChunkedReader σ)} (h : readChunk s = some t) :
    ∃ n res piece p, Reader.read s.reader.parent (subspan s.data s.bytesRead n) = some (res, piece, p) ∧
      (res.err.isSome ∧ t = .done (⟨s.bytesRead + res.count, res.err⟩, overwrite s.data s.bytesRead piece,
          ⟨p, s.reader.currentChunkSize - res.count⟩) ∨
        t = .next ⟨⟨p, s.reader.currentChunkSize - res.count⟩, s.bytesRead + res.count,
          overwrite s.data s.bytesRead piece⟩ ∨
        ∃ q, validateEndOfChunk ⟨p, s.reader.currentChunkSize - res.count⟩ = some q ∧
          t = endTurn (s.bytesRead + res.count) (overwrite s.data s.bytesRead piece) q) := by
  obtain ⟨⟨res, piece, p⟩, hread, h⟩ := Option.bind_eq_some_iff.1 h
  refine ⟨_, res, piece, p, hread, ?_⟩
  dsimp only at h
  split_ifs at h with herr hzero
  · cases h
    exact .inl ⟨herr, rfl⟩
  · obtain ⟨⟨err, r'⟩, hvalid, h⟩ := Option.bind_eq_some_iff.1 h
    refine .inr (.inr ⟨(err, r'), hvalid, ?_⟩)
    rw [endTurn]
    dsimp only at h ⊢
    split_ifs at h ⊢ <;> exact (Option.some.inj h).symm
  · cases h
    exact .inr (.inl rfl)

/-- A chunk is left with an error only. -/
theorem readChunk_done {q : Result × Bytes × ChunkedReader σ} (h : readChunk s = some (.done q)) : q.1.err ≠ none := by
  obtain ⟨n, res, piece, p, -, ⟨herr, hdone⟩ | hdone | ⟨⟨err, r'⟩, -, hdone⟩⟩ := readChunk_inv h
  · cases hdone
    exact Option.isSome_iff_ne_none.1 herr
  · cases hdone
  · rw [endTurn] at hdone
    split_ifs at hdone with herr
    · cases hdone
      exact Option.isSome_iff_ne_none.1 herr

/-- The span keeps its length. -/
theorem readChunk_next [LawfulReader σ] {s' : State σ} (h : readChunk s = some (.next s')) :
    s'.data.length = s.data.length := by
  obtain ⟨n, res, piece, p, hread, ⟨-, hdone⟩ | hnext | ⟨⟨err, r'⟩, -, hnext⟩⟩ := readChunk_inv h
  · cases hdone
  · cases hnext
    exact length_overwrite_subspan (LawfulReader.delivers hread).length_span
  · rw [endTurn] at hnext
    split_ifs at hnext
    · cases hnext
      exact length_overwrite_subspan (LawfulReader.delivers hread).length_span

/-- What a turn does: nothing, if the span is full; else it goes on in a chunk, or begins with the next one, which may
    be the last. -/
theorem readTurn_inv {t : Turn (State σ) (Result × Bytes × ChunkedReader σ)} (h : readTurn s = some t) :
    ¬s.bytesRead < s.data.length ∧ t = .done (⟨s.bytesRead, none⟩, s.data, s.reader) ∨
      s.reader.currentChunkSize ≠ 0 ∧ readChunk s = some t ∨
      s.reader.currentChunkSize = 0 ∧ ∃ err r', s.reader.getNextChunkSize = some (err, r') ∧
        (err.isSome ∧ t = .done (⟨s.bytesRead, err⟩, s.data, r') ∨
          (∃ q, r'.currentChunkSize = 0 ∧ r'.validateEndOfChunk = some q ∧
            t = .done (⟨s.bytesRead, q.1⟩, s.data, q.2)) ∨
          readChunk { s with reader := r' } = some t) := by
  rw [readTurn] at h
  split_ifs at h with hroom hzero
  · obtain ⟨⟨err, r'⟩, hnext, h⟩ := Option.bind_eq_some_iff.1 h
    refine .inr (.inr ⟨hzero, err, r', hnext, ?_⟩)
    dsimp only at h
    split_ifs at h with herr hlast
    · exact .inl ⟨herr, (Option.some.inj h).symm⟩
    · obtain ⟨q, hvalid, h⟩ := Option.bind_eq_some_iff.1 h
      exact .inr (.inl ⟨q, hlast, hvalid, (Option.some.inj h).symm⟩)
    · exact .inr (.inr h)
  · exact .inr (.inl ⟨hzero, h⟩)
  · exact .inl ⟨hroom, (Option.some.inj h).symm⟩

theorem readChunk_readsTo {t : Turn (State σ) (Result × Bytes × ChunkedReader σ)} (h : readChunk s = some t) :
    ReadsTo s.reader.parent (turnParent t) := by
  obtain ⟨n, res, piece, p, hread, ⟨-, rfl⟩ | rfl | ⟨⟨err, r'⟩, hvalid, rfl⟩⟩ := readChunk_inv h
  · exact readsTo_of_read hread
  · exact readsTo_of_read hread
  · have hend := (readsTo_of_read hread).trans (validateEndOfChunk_readsTo hvalid).1
    rw [endTurn]
    split_ifs <;> exact hend

/-- A turn where a chunk is to begin starts with a read of one byte. -/
theorem readTurn_first {t : Turn (State σ) (Result × Bytes × ChunkedReader σ)} (h : readTurn s = some t)
    (hzero : s.reader.currentChunkSize = 0) (hroom : s.bytesRead < s.data.length) :
    ∃ res d p, Reader.read s.reader.parent [0] = some (res, d, p) ∧ ReadsTo p (turnParent t) := by
  obtain ⟨hfull, -⟩ | ⟨hopen, -⟩ | ⟨-, err, r', hnext, hrest⟩ := readTurn_inv h
  · exact absurd hroom hfull
  · exact absurd hzero hopen
  obtain ⟨res, d, p, hread, hp⟩ := getNextChunkSize_first hnext
  refine ⟨res, d, p, hread, hp.trans ?_⟩
  rcases hrest with ⟨-, rfl⟩ | ⟨q, -, hvalid, rfl⟩ | hchunk
  · exact .refl _
  · exact (validateEndOfChunk_readsTo hvalid).1
  · exact readChunk_readsTo hchunk

theorem readTurn_readsTo {t : Turn (State σ) (Result × Bytes × ChunkedReader σ)} (h : readTurn s = some t) :
    ReadsTo s.reader.parent (turnParent t) := by
  obtain ⟨-, rfl⟩ | ⟨-, hchunk⟩ | ⟨hzero, -⟩ := readTurn_inv h
  · exact .refl _
  · exact readChunk_readsTo hchunk
  by_cases hroom : s.bytesRead < s.data.length
  · obtain ⟨res, d, p, hread, hp⟩ := readTurn_first h hzero hroom
    exact (readsTo_of_read hread).trans hp
  · rw [readTurn, if_neg hroom] at h
    cases h
    exact .refl _

/-- The turns of `read` are reads of the parent. -/
theorem returns_readsTo {q : Result × Bytes × ChunkedReader σ} (h : Loop.Returns readTurn s q) :
    ReadsTo s.reader.parent q.2.2.parent := by
  refine h.invariant (fun s' : State σ => ReadsTo s.reader.parent s'.reader.parent)
    (fun q : Result × Bytes × ChunkedReader σ => ReadsTo s.reader.parent q.2.2.parent) ?_ ?_ (.refl _)
  all_goals exact fun s' t hs' hturn => hs'.trans (readTurn_readsTo hturn)

variable {data data' : Bytes} {res : Result}

theorem read_readsTo (h : r.read data = some (res, data', r')) : ReadsTo r.parent r'.parent :=
  returns_readsTo (Loop.returns_of_run h)

/-- A read where a chunk is to begin starts with a read of one byte. -/
theorem read_first (h : r.read data = some (res, data', r')) (hzero : r.currentChunkSize = 0) (hne : data ≠ []) :
    ∃ res d p, Reader.read r.parent [0] = some (res, d, p) ∧ ReadsTo p r'.parent := by
  have hroom : 0 < data.length := List.length_pos_iff.2 hne
  have hret := Loop.returns_of_run h
  generalize hs₀ : (⟨r, 0, data⟩ : State σ) = s₀ at hret
  cases hret with
  | done hturn =>
    subst hs₀
    exact readTurn_first hturn hzero hroom
  | next hturn hret =>
    subst hs₀
    obtain ⟨res, d, p, hread, hp⟩ := readTurn_first hturn hzero hroom
    exact ⟨res, d, p, hread, hp.trans (returns_readsTo hret)⟩

theorem reads_readsTo {datas : List Bytes} {results : List Result} {out : Bytes}
    (h : r.reads datas = some (results, out, r')) : ReadsTo r.parent r'.parent := by
  induction datas generalizing r results out with
  | nil =>
    cases h
    exact .refl _
  | cons data datas ih =>
    obtain ⟨⟨res, data', r₁⟩, hread, h⟩ := Option.bind_eq_some_iff.1 h
    obtain ⟨⟨results', out', r₂⟩, hreads, h⟩ := Option.bind_eq_some_iff.1 h
    cases h
    exact (read_readsTo hread).trans (ih hreads)

end Inversion

/-! ## Behind the last chunk -/

section Behind

variable {σ : Type*} [Reader σ Byte ErrorCondition] [LawfulReader σ] {r r' : ChunkedReader σ}

/-- A read that is not filled, without an error, was ended by the last chunk: no chunk is left open. -/
theorem currentChunkSize_of_read {data data' : Bytes} {res : Result} (h : r.read data = some (res, data', r'))
    (herr : res.err = none) (hcount : res.count < data.length) : r'.currentChunkSize = 0 := by
  have hpost := (Loop.returns_of_run h).invariant (fun s : State σ => s.data.length = data.length)
    (fun q : Result × Bytes × ChunkedReader σ => q.1.err = none → q.1.count < data.length → q.2.2.currentChunkSize = 0)
    ?_ ?_ rfl
  · exact hpost herr hcount
  · -- The span keeps its length, whatever is written into it.
    intro s s' hlen hturn
    obtain ⟨-, hdone⟩ | ⟨-, hchunk⟩ | ⟨-, err, r₁, -, ⟨-, hdone⟩ | ⟨q, -, -, hdone⟩ | hchunk⟩ := readTurn_inv hturn
    · cases hdone
    · exact (readChunk_next hchunk).trans hlen
    · cases hdone
    · cases hdone
    · exact (readChunk_next hchunk).trans hlen
  · intro s q hlen hturn herr hcount
    obtain ⟨hfull, hdone⟩ | ⟨-, hchunk⟩ |
      ⟨-, err, r₁, -, ⟨hsome, hdone⟩ | ⟨⟨err', r₂⟩, hzero, hvalid, hdone⟩ | hchunk⟩ := readTurn_inv hturn
    · cases hdone
      exact absurd (hlen ▸ hcount) hfull
    · exact absurd herr (readChunk_done hchunk)
    · cases hdone
      rw [show err = none from herr] at hsome
      cases hsome
    · cases hdone
      exact (validateEndOfChunk_readsTo hvalid).2.trans hzero
    · exact absurd herr (readChunk_done hchunk)

/-- A read where a chunk is to begin, of a parent that hands out nothing. -/
theorem read_of_count_eq_zero {res : Result} {d : Bytes} {p : σ} (hzero : r.currentChunkSize = 0)
    (hread : Reader.read r.parent [0] = some (res, d, p)) (hcount : res.count = 0) {data : Bytes} (hne : data ≠ []) :
    ∃ err, r.read data = some (⟨0, some err⟩, data, ⟨p, 0⟩) := by
  have hroom : 0 < data.length := List.length_pos_iff.2 hne
  have hd : d = [0] := by
    rw [(LawfulReader.delivers hread).span, hcount]
    rfl
  subst hd
  -- The byte keeps the value it was given, which is neither a digit nor an end of line.
  have hturn : ∃ err, sizeTurn { r with currentChunkSize := 0 } = some (.done (some err, ⟨p, 0⟩)) := by
    obtain ⟨count, err⟩ := res
    rw [sizeTurn, hread, Option.bind_eq_bind, Option.bind_some]
    cases err with
    | none => exact ⟨.errc .illegalByteSequence, rfl⟩
    | some err => exact ⟨err, rfl⟩
  obtain ⟨err, hturn⟩ := hturn
  have hnext : r.getNextChunkSize = some (some err, ⟨p, 0⟩) := Loop.run_succ_done hturn
  refine ⟨err, Loop.run_succ_done ?_⟩
  rw [readTurn, if_pos hroom, if_pos hzero, hnext]
  rfl

omit [LawfulReader σ] in
theorem read_nil (r : ChunkedReader σ) : r.read [] = some (⟨0, none⟩, [], r) := Loop.run_succ_done rfl

omit [LawfulReader σ] in
/-- A read that delivers nothing, in front of other reads. -/
theorem reads_cons_of_count_eq_zero {data data' : Bytes} {err : Option ErrorCondition}
    (hread : r.read data = some (⟨0, err⟩, data', r')) (datas : List Bytes) (c : Bytes) :
    (∃ results r₁, r.reads (data :: datas) = some (results, [], r₁) ∧ Reader.content r₁.parent = c) ↔
      ∃ results r₁, r'.reads datas = some (results, [], r₁) ∧ Reader.content r₁.parent = c := by
  rw [reads, hread, Option.bind_eq_bind, Option.bind_some]
  dsimp only
  constructor
  · rintro ⟨results, r₁, h, hc⟩
    obtain ⟨⟨results', out, r₂⟩, hreads, h⟩ := Option.bind_eq_some_iff.1 h
    rw [List.take_zero, List.nil_append] at h
    cases h
    exact ⟨results', _, hreads, hc⟩
  · rintro ⟨results, r₁, hreads, hc⟩
    rw [hreads]
    exact ⟨⟨0, err⟩ :: results, r₁, rfl, hc⟩

/-- Where a chunk is to begin, reads deliver nothing and take nothing if and only if the parent hands out nothing to
    as many reads of one byte as there are spans that are not empty. -/
theorem reads_behind_iff (hzero : r.currentChunkSize = 0) (datas : List Bytes) :
    (∃ results r', r.reads datas = some (results, [], r') ∧ Reader.content r'.parent = Reader.content r.parent) ↔
      ∃ p, Lib.reads r.parent (List.replicate (datas.countP (· ≠ [])) [0]) = some ([], p) := by
  induction datas generalizing r with
  | nil => exact iff_of_true ⟨[], r, rfl, rfl⟩ ⟨r.parent, rfl⟩
  | cons data datas ih =>
    by_cases hne : data = []
    · subst hne
      rw [List.countP_cons_of_neg (by simp), reads_cons_of_count_eq_zero (read_nil r)]
      exact ih hzero
    rw [List.countP_cons_of_pos (by simpa using hne), List.replicate_succ]
    -- Both sides come down to the first byte read, of which there is none.
    have hstep : ∀ {res d p}, Reader.read r.parent [0] = some (res, d, p) → res.count = 0 →
        ((∃ results r', r.reads (data :: datas) = some (results, [], r') ∧
            Reader.content r'.parent = Reader.content r.parent) ↔
          ∃ q, Lib.reads r.parent ([0] :: List.replicate (datas.countP (· ≠ [])) [0]) = some ([], q)) := by
      intro res d p hfirst hcount
      obtain ⟨err, hread⟩ := read_of_count_eq_zero hzero hfirst hcount hne
      rw [reads_cons_of_count_eq_zero hread, ← (LawfulReader.delivers hfirst).count_eq_zero_iff.1 hcount,
        ih (r := ⟨p, 0⟩) rfl, Lib.reads, hfirst, Option.bind_some]
      simp [hcount]
    constructor
    · rintro ⟨results, r', h, hc⟩
      obtain ⟨⟨res, data', r₁⟩, hread, hrest⟩ := Option.bind_eq_some_iff.1 h
      obtain ⟨⟨results', out, r₂⟩, hreads, hrest⟩ := Option.bind_eq_some_iff.1 hrest
      simp only [Option.some.injEq, Prod.mk.injEq] at hrest
      obtain ⟨-, -, rfl⟩ := hrest
      obtain ⟨res₀, d, p, hfirst, hp⟩ := read_first hread hzero hne
      have hle := (hp.trans (reads_readsTo hreads)).content_suffix.length_le
      rw [hc] at hle
      have hcontent := (readsTo_of_read hfirst).content_suffix.eq_of_length_le hle
      have hcount := (LawfulReader.delivers hfirst).count_eq_zero_iff.2 hcontent
      exact (hstep hfirst hcount).1 ⟨results, r₂, h, hc⟩
    · rintro ⟨p, h⟩
      obtain ⟨res, d, p₁, hfirst, hcount, -⟩ := reads_cons_nil h
      exact (hstep hfirst hcount).2 ⟨p, h⟩

end Behind

/-! ## Bodies -/

theorem reads_concat {σ : Type*} [Reader σ Byte ErrorCondition] {r r₁ r₂ : ChunkedReader σ} {datas : List Bytes}
    {results : List Result} {out data data' : Bytes} {res : Result} (hreads : r.reads datas = some (results, out, r₁))
    (hread : r₁.read data = some (res, data', r₂)) :
    r.reads (datas ++ [data]) = some (results ++ [res], out ++ data'.take res.count, r₂) := by
  induction datas generalizing r results out with
  | nil =>
    cases hreads
    simp [reads, hread]
  | cons first datas ih =>
    obtain ⟨⟨res', first', r'⟩, hfirst, hreads⟩ := Option.bind_eq_some_iff.1 hreads
    obtain ⟨⟨results', out', r''⟩, hrest, hreads⟩ := Option.bind_eq_some_iff.1 hreads
    cases hreads
    rw [List.cons_append, reads, hfirst, Option.bind_eq_bind, Option.bind_some]
    dsimp only
    rw [ih hrest]
    simp

theorem fullResults_concat (n : ℕ) (datas : List Bytes) (data : Bytes) :
    fullResults n (datas ++ [data]) = fullResults n datas ++ [⟨min data.length (n - datas.flatten.length), none⟩] := by
  induction datas generalizing n with
  | nil => rfl
  | cons first datas ih =>
    rw [List.cons_append, fullResults, ih, fullResults, List.flatten_cons, List.length_append, Nat.sub_sub]
    rfl

/-- On a parent that fills its reads, a read that is not filled has come to what is behind the body. -/
theorem content_of_read {σ : Type*} [Reader σ Byte ErrorCondition] [LawfulReader σ] [FillingReader σ] {s : σ}
    {last rest : Bytes} {chunks : List Chunk} (hs : FillingReader.Filling s) (hlast : IsZero last)
    (hbody : Reader.content s = bodyText last chunks ++ rest) {spans : List Bytes} {results : List Result} {out : Bytes}
    {r r' : ChunkedReader σ} (hreads : (new s).reads spans = some (results, out, r))
    (hspans : spans.flatten.length ≤ (bodyData chunks).length) {data data' : Bytes} {res : Result}
    (hread : r.read data = some (res, data', r')) (hcount : res.count < data.length) :
    Reader.content r'.parent = rest := by
  have hlen : (spans ++ [data]).dropLast.flatten.length ≤ (bodyData chunks).length := by rwa [List.dropLast_concat]
  obtain ⟨r₁, hreads₁, hrest⟩ :=
    reads_at steady_filling whole_filling hlast (at_new hs hbody) (D := bodyData chunks) rfl hlen
  rw [reads_concat hreads hread, fullResults_concat, Option.some.injEq, Prod.mk.injEq, Prod.mk.injEq] at hreads₁
  obtain ⟨hresults, -, rfl⟩ := hreads₁
  obtain rfl := List.singleton_inj.1 (List.append_inj' hresults rfl).2
  refine hrest ?_ trivial
  dsimp only at hcount
  rw [List.flatten_append, List.length_append, List.flatten_singleton]
  omega

/-- Once a read has come to the last chunk of a body, all later ones deliver nothing and take nothing from the parent
    if and only if there is nothing left there. With a parent that fills its reads, what is left is what follows the
    body. -/
theorem reads_finished_iff (s : Source) {last rest : Bytes} {chunks : List Chunk} (hlast : IsZero last)
    (hbody : s.pending = bodyText last chunks ++ rest) {spans : List Bytes} {results : List Result} {out : Bytes}
    {r r' : ChunkedReader Source} (hreads : (new s).reads spans = some (results, out, r)) {data data' : Bytes}
    {res : Result} (hread : r.read data = some (res, data', r')) (herr : res.err = none)
    (hcount : res.count < data.length) :
    ((∀ later, ∃ results' r'', r'.reads later = some (results', [], r'') ∧
        r''.parent.pending = r'.parent.pending) ↔ r'.parent.pending = []) ∧
      (s.script = [] → spans.flatten.length ≤ (bodyData chunks).length → r'.parent.pending = rest) := by
  have hzero := currentChunkSize_of_read hread herr hcount
  refine ⟨⟨fun h => ?_, fun hnil later => ?_⟩, fun hs hspans => ?_⟩
  · -- More reads than there are entries in the script take something, if there is anything.
    have hquiet := (reads_behind_iff hzero _).1 (h (List.replicate (r'.parent.script.length + 1) [0]))
    rw [List.countP_replicate] at hquiet
    obtain ⟨p, hquiet⟩ := hquiet
    exact Source.pending_eq_nil_of_reads hquiet
  · refine (reads_behind_iff hzero later).2 ?_
    obtain ⟨out', p, hreads'⟩ := r'.parent.exists_reads (List.replicate (later.countP (· ≠ [])) [0])
    have hcontent := reads_append_content hreads'
    rw [Source.reader_content, Source.reader_content, hnil, List.append_eq_nil_iff] at hcontent
    exact ⟨p, by rw [hreads', hcontent.1]⟩
  · exact content_of_read hs hlast hbody hreads hspans hread hcount

/-- A body of two bytes, with nothing behind it. -/
theorem reads_finished_iff_two :
    ∃ r r' : ChunkedReader Source,
      (new ⟨sv "2\r\nab\r\n0\r\n\r\n", [], some .closed⟩).reads [[0]] = some ([⟨1, none⟩], sv "a", r) ∧
      r.read [0, 0, 0] = some (⟨1, none⟩, sv "b" ++ [0, 0], r') ∧
      ((∀ later, ∃ results' r'', r'.reads later = some (results', [], r'') ∧
        r''.parent.pending = r'.parent.pending) ↔ r'.parent.pending = []) ∧ r'.parent.pending = [] := by
  have hreads : (new (⟨sv "2\r\nab\r\n0\r\n\r\n", [], some .closed⟩ : Source)).reads [[0]] =
      some ([⟨1, none⟩], sv "a", ⟨⟨sv "b\r\n0\r\n\r\n", [], some .closed⟩, 1⟩) := by decide +kernel
  have hread : read (⟨⟨sv "b\r\n0\r\n\r\n", [], some .closed⟩, 1⟩ : ChunkedReader Source) [0, 0, 0] =
      some (⟨1, none⟩, sv "b" ++ [0, 0], ⟨⟨[], [], some .closed⟩, 0⟩) := by decide +kernel
  let chunk : Chunk := ⟨sv "2", sv "ab", by decide, by decide, by decide, by decide⟩
  have hbody : sv "2\r\nab\r\n0\r\n\r\n" = bodyText (sv "0") [chunk] ++ [] := by decide +kernel
  obtain ⟨hiff, hrest⟩ := reads_finished_iff ⟨sv "2\r\nab\r\n0\r\n\r\n", [], some .closed⟩ (by decide) hbody hreads
    hread rfl (by decide)
  exact ⟨_, _, hreads, hread, hiff, hrest rfl (by decide)⟩

/-- A read behind a body delivers the data of what follows. -/
theorem reads_behind_body :
    ¬∀ (s : Source) (last rest : Bytes) (chunks : List Chunk), IsZero last →
      s.pending = bodyText last chunks ++ rest →
      ∀ (spans : List Bytes) (results : List Result) (out : Bytes) (r : ChunkedReader Source),
      (new s).reads spans = some (results, out, r) →
      ∀ (data data' : Bytes) (res : Result) (r' : ChunkedReader Source), r.read data = some (res, data', r') →
      res.err = none → res.count < data.length →
      ∀ later, ∃ results' r'', r'.reads later = some (results', [], r'') ∧
        r''.parent.pending = r'.parent.pending := by
  intro h
  obtain ⟨results, r'', hreads, -⟩ := h ⟨sv "0\r\n\r\n1\r\nx\r\n", [], none⟩ (sv "0") (sv "1\r\nx\r\n") [] (by decide)
    (by decide) [] [] [] _ rfl [0] [0] ⟨0, none⟩ ⟨⟨sv "1\r\nx\r\n", [], none⟩, 0⟩ (by decide +kernel) rfl
    (by decide) [[0]]
  have hx : reads (⟨⟨sv "1\r\nx\r\n", [], none⟩, 0⟩ : ChunkedReader Source) [[0]] =
      some ([⟨1, none⟩], sv "x", ⟨⟨[], [], none⟩, 0⟩) := by decide +kernel
  cases hx.symm.trans hreads

end ChunkedReader

end Cppnet.Http
