import Cppnet.Http.Chunks
import Mathlib.Data.List.TakeWhile

/-!
# The texts a `chunked_reader` accepts

On a parent that fills every read as long as it has bytes, and ends in an error: which texts are read to the end of a
body, whatever the spans.

A `chunked_reader` takes a text apart into blocks, of a size, data and an ending each (`Splits`), and accepts it if
and only if this comes to a block without data (`drain_ends`). Bodies in chunks fall into such blocks (`IsBody`), but
so do other texts, for

* there may be no digit in a size, and a size counts modulo 2 ^ 64;
* one byte of an ending is enough, at the right place: the other one may be anything, or be missing at the end of the
  text.

The bodies are the only texts to be accepted if and only if no text with such a block is (`drain_isBody_iff`).
-/

namespace Cppnet.Http

open Lib Io

/-! ## Blocks -/

/-- The end of a chunk, as it is accepted in front of `rest`: two bytes, one of which is that of an end of line, or
    the first one of them at the end of the text. -/
def IsEnding (ending rest : Bytes) : Prop :=
  (∃ a b, ending = [a, b] ∧ (a = 13 ∨ b = 10)) ∨ ending = [13] ∧ rest = []

/-- A chunk as it is read. -/
structure Block where
  size : Bytes
  data : Bytes
  ending : Bytes
  deriving DecidableEq

/-- The size is a number, and the ending an end of line. -/
structure Block.Exact (b : Block) : Prop where
  size_ne_nil : b.size ≠ []
  size_lt : numeralValue 10 (digits 10 b.size) < 2 ^ 64
  ending_eq : b.ending = crlf

/-- The blocks a text falls into, up to one without data. -/
inductive Splits : Bytes → List Block → Prop
  | last {t size ending rest : Bytes} (hsize : ∀ c ∈ size, (digit 10 c).isSome)
      (hzero : numeralValue 10 (digits 10 size) % 2 ^ 64 = 0) (hending : IsEnding ending rest)
      (ht : t = size ++ (crlf ++ (ending ++ rest))) : Splits t [⟨size, [], ending⟩]
  | chunk {t size data ending rest : Bytes} {blocks : List Block} (hsize : ∀ c ∈ size, (digit 10 c).isSome)
      (hdata : numeralValue 10 (digits 10 size) % 2 ^ 64 = data.length) (hne : data ≠ [])
      (hending : IsEnding ending rest) (hrest : Splits rest blocks)
      (ht : t = size ++ (crlf ++ (data ++ (ending ++ rest)))) : Splits t (⟨size, data, ending⟩ :: blocks)

section Blocks

variable {size size' ending ending' rest rest' t : Bytes} {blocks blocks' : List Block}

/-- A text starts with one size at most. -/
theorem size_unique (hsize : ∀ c ∈ size, (digit 10 c).isSome) (hsize' : ∀ c ∈ size', (digit 10 c).isSome)
    (h : size ++ (crlf ++ rest) = size' ++ (crlf ++ rest')) : size = size' ∧ rest = rest' := by
  have hnot : ∀ {s : Bytes}, (∀ c ∈ s, (digit 10 c).isSome) → (13 : Byte) ∉ s := fun hs hmem =>
    absurd (hs 13 hmem) (by decide)
  obtain rfl : size = size' := eq_of_append_cons_eq h (hnot hsize) (hnot hsize')
  exact ⟨rfl, List.append_cancel_left (List.append_cancel_left h)⟩

/-- The digits a text starts with, and what is behind them: the end of a line, if there is a size. -/
theorem exists_size (t : Bytes) :
    ∃ size s, t = size ++ s ∧ (∀ c ∈ size, (digit 10 c).isSome) ∧ (∀ c ∈ s.head?, digit 10 c = none) ∧
      ∀ size' rest, (∀ c ∈ size', (digit 10 c).isSome) → t = size' ++ (crlf ++ rest) → crlf <+: s := by
  let isDigit : Byte → Bool := fun c => (digit 10 c).isSome
  refine ⟨t.takeWhile isDigit, t.dropWhile isDigit, List.takeWhile_append_dropWhile.symm, ?_, ?_, ?_⟩
  · intro c hc
    exact List.mem_takeWhile_imp (p := isDigit) hc
  · intro c hc
    have hnot := List.head?_dropWhile_not isDigit t
    rw [hc] at hnot
    simpa [isDigit] using hnot
  · rintro size' rest hsize' rfl
    have hdrop : (crlf ++ rest).dropWhile isDigit = crlf ++ rest := rfl
    rw [List.dropWhile_append_of_pos hsize', hdrop]
    exact List.prefix_append _ _

/-- And with one ending at most. -/
theorem IsEnding.unique (h : IsEnding ending rest) (h' : IsEnding ending' rest')
    (heq : ending ++ rest = ending' ++ rest') : ending = ending' ∧ rest = rest' := by
  rcases h with ⟨a, b, rfl, -⟩ | ⟨rfl, rfl⟩ <;> rcases h' with ⟨a', b', rfl, -⟩ | ⟨rfl, rfl⟩
  · simpa [and_assoc] using heq
  · simp at heq
  · simp at heq
  · exact ⟨rfl, rfl⟩

/-- A text falls into blocks in one way at most. -/
theorem Splits.unique (h : Splits t blocks) (h' : Splits t blocks') : blocks = blocks' := by
  induction h generalizing blocks' with
  | last hsize hzero hending ht =>
    cases h' with
    | last hsize' _ hending' ht' =>
      obtain ⟨rfl, htail⟩ := size_unique hsize hsize' (ht.symm.trans ht')
      obtain ⟨rfl, -⟩ := hending.unique hending' htail
      rfl
    | chunk hsize' hdata' hne' _ _ ht' =>
      obtain ⟨rfl, -⟩ := size_unique hsize hsize' (ht.symm.trans ht')
      exact absurd (List.eq_nil_of_length_eq_zero (hdata'.symm.trans hzero)) hne'
  | chunk hsize hdata hne hending _ ht ih =>
    cases h' with
    | last hsize' hzero' _ ht' =>
      obtain ⟨rfl, -⟩ := size_unique hsize hsize' (ht.symm.trans ht')
      exact absurd (List.eq_nil_of_length_eq_zero (hdata.symm.trans hzero')) hne
    | chunk hsize' hdata' _ hending' hrest' ht' =>
      obtain ⟨rfl, htail⟩ := size_unique hsize hsize' (ht.symm.trans ht')
      obtain ⟨rfl, hend⟩ := List.append_inj htail (hdata.symm.trans hdata')
      obtain ⟨rfl, rfl⟩ := hending.unique hending' hend
      rw [ih hrest']

/-- Behind a part of the data of a chunk, with `left` bytes of it to come: its ending, and blocks. -/
def SplitsFrom (left : ℕ) (t : Bytes) : Prop :=
  if left = 0 then ∃ blocks, Splits t blocks
  else ∃ data ending rest, t = data ++ (ending ++ rest) ∧ data.length = left ∧ IsEnding ending rest ∧
    ∃ blocks, Splits rest blocks

variable {left : ℕ}

theorem splitsFrom_zero : SplitsFrom 0 t ↔ ∃ blocks, Splits t blocks := by
  rw [SplitsFrom, if_pos rfl]

theorem not_splitsFrom_zero (h : ∀ size rest, (∀ c ∈ size, (digit 10 c).isSome) → t ≠ size ++ (crlf ++ rest)) :
    ¬SplitsFrom 0 t := by
  rw [splitsFrom_zero]
  rintro ⟨blocks, hsplits⟩
  cases hsplits with
  | last hsize _ _ ht => exact h _ _ hsize ht
  | chunk hsize _ _ _ _ ht => exact h _ _ hsize ht

/-- Behind the size of the last block. -/
theorem splitsFrom_last (hsize : ∀ c ∈ size, (digit 10 c).isSome)
    (hzero : numeralValue 10 (digits 10 size) % 2 ^ 64 = 0) :
    SplitsFrom 0 (size ++ (crlf ++ t)) ↔ ∃ ending rest, t = ending ++ rest ∧ IsEnding ending rest := by
  rw [splitsFrom_zero]
  constructor
  · rintro ⟨blocks, hsplits⟩
    cases hsplits with
    | last hsize' _ hending ht => exact ⟨_, _, (size_unique hsize hsize' ht).2, hending⟩
    | chunk hsize' hdata hne _ _ ht =>
      obtain ⟨rfl, -⟩ := size_unique hsize hsize' ht
      exact absurd (List.eq_nil_of_length_eq_zero (hdata.symm.trans hzero)) hne
  · rintro ⟨ending, rest, rfl, hending⟩
    exact ⟨_, .last hsize hzero hending rfl⟩

/-- Behind the size of a block with data. -/
theorem splitsFrom_chunk (hsize : ∀ c ∈ size, (digit 10 c).isSome)
    (hne : numeralValue 10 (digits 10 size) % 2 ^ 64 ≠ 0) :
    SplitsFrom 0 (size ++ (crlf ++ t)) ↔ SplitsFrom (numeralValue 10 (digits 10 size) % 2 ^ 64) t := by
  rw [splitsFrom_zero, SplitsFrom, if_neg hne]
  constructor
  · rintro ⟨blocks, hsplits⟩
    cases hsplits with
    | last hsize' hzero _ ht =>
      obtain ⟨rfl, -⟩ := size_unique hsize hsize' ht
      exact absurd hzero hne
    | chunk hsize' hdata _ hending hrest ht =>
      obtain ⟨rfl, rfl⟩ := size_unique hsize hsize' ht
      exact ⟨_, _, _, rfl, hdata.symm, hending, _, hrest⟩
  · rintro ⟨data, ending, rest, rfl, hdata, hending, blocks, hrest⟩
    exact ⟨_, .chunk hsize hdata.symm (List.ne_nil_of_length_pos (by omega)) hending hrest rfl⟩

/-- Behind some of the data. -/
theorem splitsFrom_drop {n : ℕ} (hn : n < left) (hle : n ≤ t.length) :
    SplitsFrom left t ↔ SplitsFrom (left - n) (t.drop n) := by
  rw [SplitsFrom, SplitsFrom, if_neg (by omega), if_neg (by omega)]
  constructor
  · rintro ⟨data, ending, rest, rfl, hdata, h⟩
    refine ⟨data.drop n, ending, rest, List.drop_append_of_le_length (by omega), ?_, h⟩
    rw [List.length_drop, hdata]
  · rintro ⟨data, ending, rest, ht, hdata, h⟩
    refine ⟨t.take n ++ data, ending, rest, ?_, ?_, h⟩
    · rw [List.append_assoc, ← ht, List.take_append_drop]
    · rw [List.length_append, List.length_take_of_le hle, hdata]
      omega

/-- Behind all of it. -/
theorem splitsFrom_end (hleft : left ≠ 0) (hle : left ≤ t.length) :
    SplitsFrom left t ↔ ∃ ending rest, t.drop left = ending ++ rest ∧ IsEnding ending rest ∧ SplitsFrom 0 rest := by
  rw [SplitsFrom, if_neg hleft]
  constructor
  · rintro ⟨data, ending, rest, rfl, hdata, hending, h⟩
    exact ⟨ending, rest, List.drop_left' hdata, hending, splitsFrom_zero.2 h⟩
  · rintro ⟨ending, rest, ht, hending, h⟩
    refine ⟨t.take left, ending, rest, ?_, List.length_take_of_le hle, hending, splitsFrom_zero.1 h⟩
    rw [← ht, List.take_append_drop]

theorem not_splitsFrom_of_lt (hlt : t.length < left) : ¬SplitsFrom left t := by
  rw [SplitsFrom, if_neg (by omega)]
  rintro ⟨data, ending, rest, rfl, hdata, -⟩
  rw [List.length_append] at hlt
  omega

end Blocks

/-! ## Reading blocks -/

namespace ChunkedReader

/-- The errors of a text that is not accepted: that of the reader, or that of the parent. -/
def Rejects (e x : ErrorCondition) : Prop := x = .errc .illegalByteSequence ∨ x = e

/-- The errors where a text ends early: that of the reader, or that of the parent, if it has one. -/
def Refuses (err : Option ErrorCondition) (x : ErrorCondition) : Prop := x = .errc .illegalByteSequence ∨ err = some x

theorem Refuses.rejects {e x : ErrorCondition} (h : Refuses (some e) x) : Rejects e x :=
  h.imp id fun h => (Option.some.inj h).symm

section Reading

variable {σ : Type*} [Reader σ Byte ErrorCondition] [LawfulReader σ] {P : σ → Prop} {e : ErrorCondition}
  {r : ChunkedReader σ} {err : Option ErrorCondition} {ok : ℕ → Prop}

/-- A byte of the size that is not there: the error is that of the parent, or that of the byte being zero. -/
theorem sizeTurn_of_end (h : RunsDry err ok P) (hok : ok 1) (hr : P r.parent) (hc : Reader.content r.parent = []) :
    ∃ x r', sizeTurn r = some (.done (some x, r')) ∧ Refuses err x := by
  obtain ⟨d, p, hread, -⟩ := h.read_end (d := [0]) hr hc hok
  have hd : d = [0] := (LawfulReader.delivers hread).span
  subst hd
  rw [sizeTurn, hread, Option.bind_eq_bind, Option.bind_some]
  cases err with
  | none => exact ⟨.errc .illegalByteSequence, _, rfl, .inl rfl⟩
  | some e => exact ⟨e, _, rfl, .inr rfl⟩

/-- The same for the line feed behind the carriage return. -/
theorem sizeTurn_of_cr (h : RunsDry err ok P) (hok : ok 0) (hok' : ok 1) (hr : P r.parent)
    (hc : Reader.content r.parent = [13]) : ∃ x r', sizeTurn r = some (.done (some x, r')) ∧ Refuses err x := by
  obtain ⟨p₁, hread₁, hp₁, hc₁⟩ := (h.steady hok).read_one hr hc 0
  obtain ⟨d, p, hread, -⟩ := h.read_end (d := [13]) hp₁ hc₁ hok'
  have hd : d = [13] := (LawfulReader.delivers hread).span
  subst hd
  have hrange : ¬(ch '0' ≤ 13 ∧ 13 ≤ ch '9') := by decide
  have hcr : (13 : Byte) = ch '\r' := by decide
  have hlf : (13 : Byte) ≠ ch '\n' := by decide
  cases err with
  | none =>
    refine ⟨.errc .illegalByteSequence, ⟨p, r.currentChunkSize⟩, ?_, .inl rfl⟩
    simp [sizeTurn, hread₁, ← hcr, hrange, hread, hlf]
  | some e =>
    refine ⟨e, ⟨p, r.currentChunkSize⟩, ?_, .inr rfl⟩
    simp [sizeTurn, hread₁, ← hcr, hrange, hread]

/-- The end of a size, where there is no digit. -/
theorem sizeTurn_dry (h : RunsDry err ok P) (hok : ok 0) (hok' : ok 1) (hr : P r.parent)
    (hdigit : ∀ c ∈ (Reader.content r.parent).head?, digit 10 c = none) :
    (∃ p, sizeTurn r = some (.done (none, ⟨p, r.currentChunkSize⟩)) ∧ P p ∧
      Reader.content r.parent = crlf ++ Reader.content p) ∨
    ∃ x r', sizeTurn r = some (.done (some x, r')) ∧ Refuses err x ∧ ¬crlf <+: Reader.content r.parent := by
  have hsteady := h.steady hok
  rcases hc : Reader.content r.parent with _ | ⟨c, t⟩
  · obtain ⟨x, r', hturn, hx⟩ := sizeTurn_of_end h hok' hr hc
    exact .inr ⟨x, r', hturn, hx, by simp [crlf]⟩
  by_cases hc13 : c = 13
  swap
  · obtain ⟨r', hturn⟩ := sizeTurn_illegal hsteady hr hc (hdigit c (by rw [hc]; rfl)) hc13
    exact .inr ⟨_, r', hturn, .inl rfl, by simpa [crlf] using fun h => absurd h.symm hc13⟩
  subst hc13
  rcases t with _ | ⟨b, t⟩
  · -- The text ends behind the carriage return.
    obtain ⟨x, r', hturn, hx⟩ := sizeTurn_of_cr h hok hok' hr hc
    exact .inr ⟨x, r', hturn, hx, by simp [crlf]⟩
  by_cases hlf : b = 10
  · subst hlf
    obtain ⟨p, hturn, hp, hrest⟩ := sizeTurn_crlf hsteady hr (show Reader.content r.parent = crlf ++ t from hc)
    exact .inl ⟨p, hturn, hp, by rw [hrest]; rfl⟩
  · obtain ⟨p₁, hread₁, hp₁, hc₁⟩ := hsteady.read_one hr hc 0
    obtain ⟨p, hread, -⟩ := hsteady.read_one hp₁ hc₁ 13
    refine .inr ⟨_, ⟨p, r.currentChunkSize⟩, ?_, .inl rfl, by simpa [crlf] using fun h => absurd h.symm hlf⟩
    have hrange : ¬(ch '0' ≤ 13 ∧ 13 ≤ ch '9') := by decide
    have hcr : (13 : Byte) = ch '\r' := by decide
    have hlf' : b ≠ ch '\n' := hlf
    simp [sizeTurn, hread₁, ← hcr, hrange, hread, hlf']

/-- `get_next_chunk_size` finds a size, if there is one. -/
theorem getNextChunkSize_dry (h : RunsDry err ok P) (hok : ok 0) (hok' : ok 1) (hr : P r.parent) :
    (∃ size p, r.getNextChunkSize = some (none, ⟨p, numeralValue 10 (digits 10 size) % 2 ^ 64⟩) ∧ P p ∧
      (∀ c ∈ size, (digit 10 c).isSome) ∧ Reader.content r.parent = size ++ (crlf ++ Reader.content p)) ∨
    ∃ x r', r.getNextChunkSize = some (some x, r') ∧ Refuses err x ∧
      ∀ size rest, (∀ c ∈ size, (digit 10 c).isSome) → Reader.content r.parent ≠ size ++ (crlf ++ rest) := by
  obtain ⟨size, t, hc, hsize, hdigit, hcrlf⟩ := exists_size (Reader.content r.parent)
  have hfuel : Reader.fuel r.parent + 1 = Reader.fuel r.parent - size.length + 1 + size.length := by
    have hlen := h.fuel hr
    rw [hc, List.length_append] at hlen
    omega
  obtain ⟨p₁, hrun, hp₁, hc₁⟩ := run_sizeTurn_digits (h.steady hok) hsize
    (r := { r with currentChunkSize := 0 }) (v := 0) hr rfl hc (Reader.fuel r.parent - size.length + 1)
  rw [← hfuel] at hrun
  rw [← hc₁] at hdigit hcrlf
  rcases sizeTurn_dry (r := ⟨p₁, _⟩) h hok hok' hp₁ hdigit with ⟨p, hturn, hp, hrest⟩ | ⟨x, r', hturn, hx, hnot⟩
  · left
    refine ⟨size, p, hrun.trans (Loop.run_succ_done hturn), hp, hsize, ?_⟩
    rw [hc, ← hc₁, hrest]
  · right
    exact ⟨x, r', hrun.trans (Loop.run_succ_done hturn), hx,
      fun size' rest hsize' heq => hnot (hcrlf size' rest hsize' heq)⟩

/-- `get_next_chunk_size` finds the size of a block, if there is one. -/
theorem getNextChunkSize_ends (h : Ends e P) (hr : P r.parent) :
    (∃ size p, r.getNextChunkSize = some (none, ⟨p, numeralValue 10 (digits 10 size) % 2 ^ 64⟩) ∧ P p ∧
      (∀ c ∈ size, (digit 10 c).isSome) ∧ Reader.content r.parent = size ++ (crlf ++ Reader.content p)) ∨
    ∃ x r', r.getNextChunkSize = some (some x, r') ∧ Rejects e x ∧ ¬SplitsFrom 0 (Reader.content r.parent) := by
  rcases getNextChunkSize_dry h.runsDry trivial trivial hr with hsize | ⟨x, r', hnext, hx, hnot⟩
  · exact .inl hsize
  · exact .inr ⟨x, r', hnext, hx.rejects, not_splitsFrom_zero hnot⟩

omit [LawfulReader σ] in
/-- What `validate_end_of_chunk` makes of two bytes. -/
theorem validateEndOfChunk_of_read {a b : Byte} {k : ℕ} {p : σ}
    (hread : Reader.read r.parent [0, 0] = some (⟨k, none⟩, [a, b], p)) :
    r.validateEndOfChunk =
      some (if a = 13 ∨ b = 10 then none else some (.errc .illegalByteSequence), ⟨p, r.currentChunkSize⟩) := by
  have hbytes : ([a, b].getD 0 0 ≠ ch '\r' ∧ [a, b].getD 1 0 ≠ ch '\n') ↔ ¬(a = 13 ∨ b = 10) := not_or.symm
  simp only [validateEndOfChunk, hread, Option.bind_eq_bind, Option.bind_some, Option.isSome_none, hbytes]
  split_ifs <;> simp_all

/-- The end of a chunk that is not there: the error is that of the parent, or that of two bytes being zero. -/
theorem validateEndOfChunk_of_end (h : RunsDry err ok P) (hok : ok 2) (hr : P r.parent)
    (hc : Reader.content r.parent = []) : ∃ x r', r.validateEndOfChunk = some (some x, r') ∧ Refuses err x := by
  obtain ⟨d, p, hread, -⟩ := h.read_end (d := [0, 0]) hr hc hok
  have hd : d = [0, 0] := (LawfulReader.delivers hread).span
  subst hd
  rw [validateEndOfChunk, hread, Option.bind_eq_bind, Option.bind_some]
  cases err with
  | none => exact ⟨.errc .illegalByteSequence, _, rfl, .inl rfl⟩
  | some e => exact ⟨e, _, rfl, .inr rfl⟩

/-- `validate_end_of_chunk` finds an ending, if there is one. -/
theorem validateEndOfChunk_dry (h : RunsDry err ok P) (hok : ok 0) (hok' : ok 1) (hr : P r.parent)
    (hok₂ : Reader.content r.parent = [] → ok 2) :
    (∃ ending p, r.validateEndOfChunk = some (none, ⟨p, r.currentChunkSize⟩) ∧ P p ∧
      Reader.content r.parent = ending ++ Reader.content p ∧ IsEnding ending (Reader.content p)) ∨
    ∃ x r', r.validateEndOfChunk = some (some x, r') ∧ Refuses err x ∧
      ¬∃ ending rest, Reader.content r.parent = ending ++ rest ∧ IsEnding ending rest := by
  rcases hc : Reader.content r.parent with _ | ⟨a, _ | ⟨b, t⟩⟩
  · obtain ⟨x, r', hvalid, hx⟩ := validateEndOfChunk_of_end h (hok₂ hc) hr hc
    refine .inr ⟨x, r', hvalid, hx, ?_⟩
    rintro ⟨ending, rest, heq, ⟨a, b, rfl, -⟩ | ⟨rfl, -⟩⟩ <;> simp at heq
  · -- One byte, with a zero in place of the other one.
    obtain ⟨d, p, hread, hp⟩ := h.read (d := [0, 0]) hr (by simpa [hc] using hok')
    obtain ⟨-, -, rfl, hrest⟩ := LawfulReader.delivers hread
    rw [hc] at hread hrest
    have hvalid := validateEndOfChunk_of_read (b := 0) hread
    by_cases ha : a = 13
    · rw [if_pos (.inl ha)] at hvalid
      refine .inl ⟨[a], p, hvalid, hp, ?_, .inr ⟨by rw [ha], hrest⟩⟩
      rw [hrest]
      rfl
    · rw [if_neg (by simpa using ha)] at hvalid
      refine .inr ⟨_, _, hvalid, .inl rfl, ?_⟩
      rintro ⟨ending, rest, heq, ⟨a', b', rfl, -⟩ | ⟨rfl, -⟩⟩
      · simp at heq
      · exact ha (List.cons.inj heq).1
  · obtain ⟨d, p, hread, hp⟩ := h.read (d := [0, 0]) hr (by simpa [hc] using hok)
    obtain ⟨-, -, rfl, hrest⟩ := LawfulReader.delivers hread
    have hmin : min ([0, 0] : Bytes).length (a :: b :: t).length = 2 := by simp
    rw [hc, hmin, if_neg (List.length_pos_iff.2 (List.cons_ne_nil _ _)).ne'] at hread
    rw [hc] at hrest
    dsimp only at hrest
    rw [hmin] at hrest
    have hvalid := validateEndOfChunk_of_read (a := a) (b := b) hread
    by_cases hab : a = 13 ∨ b = 10
    · rw [if_pos hab] at hvalid
      refine .inl ⟨[a, b], p, hvalid, hp, ?_, .inl ⟨a, b, rfl, hab⟩⟩
      rw [hrest]
      rfl
    · rw [if_neg hab] at hvalid
      refine .inr ⟨_, _, hvalid, .inl rfl, ?_⟩
      rintro ⟨ending, rest, heq, ⟨a', b', rfl, hab'⟩ | ⟨rfl, rfl⟩⟩
      · obtain ⟨rfl, rfl, -⟩ : a = a' ∧ b = b' ∧ t = rest := by simpa using heq
        exact hab hab'
      · simp at heq

theorem validateEndOfChunk_ends (h : Ends e P) (hr : P r.parent) :
    (∃ ending p, r.validateEndOfChunk = some (none, ⟨p, r.currentChunkSize⟩) ∧ P p ∧
      Reader.content r.parent = ending ++ Reader.content p ∧ IsEnding ending (Reader.content p)) ∨
    ∃ x r', r.validateEndOfChunk = some (some x, r') ∧ Rejects e x ∧
      ¬∃ ending rest, Reader.content r.parent = ending ++ rest ∧ IsEnding ending rest := by
  rcases validateEndOfChunk_dry h.runsDry trivial trivial hr fun _ => trivial with hend | ⟨x, r', hvalid, hx, hnot⟩
  · exact .inl hend
  · exact .inr ⟨x, r', hvalid, hx.rejects, hnot⟩

/-- A turn that goes on: some bytes are taken, of which no more are delivered, and the text behind is accepted if and
    only if the text was. -/
structure Advances (P : σ → Prop) (s s' : State σ) : Prop where
  parent : P s'.reader.parent
  length_data : s'.data.length = s.data.length
  le : s'.bytesRead ≤ s'.data.length
  bytesRead : s'.bytesRead + (Reader.content s'.reader.parent).length ≤
    s.bytesRead + (Reader.content s.reader.parent).length
  lt : (Reader.content s'.reader.parent).length < (Reader.content s.reader.parent).length
  splits : SplitsFrom s'.reader.currentChunkSize (Reader.content s'.reader.parent) ↔
    SplitsFrom s.reader.currentChunkSize (Reader.content s.reader.parent)

/-- A turn that leaves the loop with an error, of a text that is not accepted. -/
def Fails (e : ErrorCondition) (s : State σ) (q : Result × Bytes × ChunkedReader σ) : Prop :=
  (∃ x, q.1.err = some x ∧ Rejects e x) ∧
    ¬SplitsFrom s.reader.currentChunkSize (Reader.content s.reader.parent)

/-- The end of a chunk all of which has been read. -/
theorem endTurn_ends (h : Ends e P) {s : State σ} {n : ℕ} {data : Bytes} {p : σ} (hsize : s.reader.currentChunkSize ≠ 0)
    (hp : P p) (hn : s.reader.currentChunkSize = n) (hle : n ≤ (Reader.content s.reader.parent).length)
    (hrest : Reader.content p = (Reader.content s.reader.parent).drop n) (hlen : data.length = s.data.length)
    (hroom : s.bytesRead + n ≤ s.data.length) :
    (∃ s', (validateEndOfChunk ⟨p, 0⟩).map (endTurn (s.bytesRead + n) data) = some (.next s') ∧ Advances P s s') ∨
      ∃ q, (validateEndOfChunk ⟨p, 0⟩).map (endTurn (s.bytesRead + n) data) = some (.done q) ∧ Fails e s q := by
  subst hn
  have hsplits := splitsFrom_end hsize hle
  rw [← hrest] at hsplits
  have hcontent := congrArg List.length hrest
  rw [List.length_drop] at hcontent
  rcases validateEndOfChunk_ends (r := ⟨p, 0⟩) h hp with
    ⟨ending, p', hvalid, hp', hc, hending⟩ | ⟨x, r', hvalid, hx, hnot⟩
  · rw [hvalid]
    have hc' := congrArg List.length hc
    rw [List.length_append] at hc'
    dsimp only at hc'
    refine .inl ⟨⟨⟨p', 0⟩, s.bytesRead + s.reader.currentChunkSize, data⟩, rfl, hp', hlen, ?_, ?_, ?_, ?_⟩
    · exact hroom.trans_eq hlen.symm
    · dsimp only
      omega
    · dsimp only
      omega
    · rw [hsplits]
      constructor
      · exact fun hrest => ⟨ending, _, hc, hending, hrest⟩
      · rintro ⟨ending', rest', hc'', hending', hrest'⟩
        rw [(hending.unique hending' (hc.symm.trans hc'')).2]
        exact hrest'
  · rw [hvalid]
    refine .inr ⟨(⟨s.bytesRead + s.reader.currentChunkSize, some x⟩, data, r'), rfl, ⟨x, rfl, hx⟩, fun h => ?_⟩
    obtain ⟨ending, rest, hc, hending, -⟩ := hsplits.1 h
    exact hnot ⟨ending, rest, hc, hending⟩

/-- The next read of the data of a chunk. -/
theorem readChunk_ends (h : Ends e P) {s : State σ} (hs : P s.reader.parent)
    (hsize : s.reader.currentChunkSize ≠ 0) (hroom : s.bytesRead < s.data.length) :
    (∃ s', readChunk s = some (.next s') ∧ Advances P s s') ∨ ∃ q, readChunk s = some (.done q) ∧ Fails e s q := by
  set amount := min (s.data.length - s.bytesRead) s.reader.currentChunkSize with hamount
  have hspan : (subspan s.data s.bytesRead amount).length = amount := length_subspan (by omega)
  by_cases hnil : Reader.content s.reader.parent = []
  · obtain ⟨piece, p, hread, -⟩ := h.read_end (subspan s.data s.bytesRead amount) hs hnil
    refine .inr ⟨(⟨s.bytesRead, some e⟩, overwrite s.data s.bytesRead piece, ⟨p, s.reader.currentChunkSize⟩), ?_,
      ⟨e, rfl, .inr rfl⟩, not_splitsFrom_of_lt ?_⟩
    · rw [readChunk, hread, Option.bind_eq_bind, Option.bind_some]
      rfl
    · rw [hnil]
      exact Nat.pos_of_ne_zero hsize
  obtain ⟨piece, p, hread, hp⟩ := h.read (subspan s.data s.bytesRead amount) hs hnil
  rw [hspan] at hread
  have hchunk := readChunk_of_read hread
  have hpiece := LawfulReader.delivers hread
  have hlen : (overwrite s.data s.bytesRead piece).length = s.data.length := length_overwrite_subspan hpiece.length_span
  have hrest := hpiece.rest
  dsimp only at hrest
  have hpos := List.length_pos_iff.2 hnil
  set n := min amount (Reader.content s.reader.parent).length with hn
  by_cases hend : s.reader.currentChunkSize - n = 0
  · -- This was the last of the chunk, and its end is read in the same turn.
    rw [if_pos hend] at hchunk
    rw [hchunk]
    exact endTurn_ends h hsize hp (by omega) (by omega) hrest hlen (by omega)
  · rw [if_neg hend] at hchunk
    have hcontent := congrArg List.length hrest
    rw [List.length_drop] at hcontent
    refine .inl ⟨_, hchunk, hp, hlen, ?_, ?_, ?_, ?_⟩
    · dsimp only
      omega
    · dsimp only
      omega
    · dsimp only
      omega
    · dsimp only
      rw [hrest]
      exact (splitsFrom_drop (by omega) (by omega)).symm

/-- A turn goes on, or comes to the end of the span, or to that of the body, or fails. -/
theorem readTurn_ends (h : Ends e P) {s : State σ} (hs : P s.reader.parent) (hroom : s.bytesRead < s.data.length) :
    (∃ s', readTurn s = some (.next s') ∧ Advances P s s') ∨ ∃ q, readTurn s = some (.done q) ∧
      (q.1 = ⟨s.bytesRead, none⟩ ∧ SplitsFrom s.reader.currentChunkSize (Reader.content s.reader.parent) ∨
        Fails e s q) := by
  by_cases hzero : s.reader.currentChunkSize = 0
  swap
  · rw [readTurn_open hzero hroom]
    exact (readChunk_ends h hs hzero hroom).imp_right fun ⟨q, hq, hfails⟩ => ⟨q, hq, .inr hfails⟩
  rcases getNextChunkSize_ends h hs with ⟨size, p, hnext, hp, hdigits, hc⟩ | ⟨x, r', hnext, hx, hnot⟩
  swap
  · refine .inr ⟨(⟨s.bytesRead, some x⟩, s.data, r'), ?_, .inr ⟨⟨x, rfl, hx⟩, by rwa [hzero]⟩⟩
    rw [readTurn, if_pos hroom, if_pos hzero, hnext]
    rfl
  by_cases hlast : numeralValue 10 (digits 10 size) % 2 ^ 64 = 0
  · -- The last chunk, and with it the end of the body.
    have hsplits := splitsFrom_last (t := Reader.content p) hdigits hlast
    rw [← hc, ← hzero] at hsplits
    right
    rcases validateEndOfChunk_ends (r := ⟨p, _⟩) h hp with ⟨ending, p', hvalid, -, hend⟩ | ⟨x, r', hvalid, hx, hnot⟩
    · exact ⟨_, readTurn_last hzero hroom hnext hlast hvalid, .inl ⟨rfl, hsplits.2 ⟨ending, _, hend⟩⟩⟩
    · refine ⟨(⟨s.bytesRead, some x⟩, s.data, r'), ?_, .inr ⟨⟨x, rfl, hx⟩, fun h => hnot (hsplits.1 h)⟩⟩
      rw [readTurn, if_pos hroom, if_pos hzero, hnext, Option.bind_eq_bind, Option.bind_some]
      dsimp only
      rw [if_pos hlast, hvalid]
      rfl
  · have hsplits := splitsFrom_chunk (t := Reader.content p) hdigits hlast
    rw [← hc, ← hzero] at hsplits
    have hlen := congrArg List.length hc
    simp only [List.length_append] at hlen
    rw [readTurn_chunk hzero hroom hnext hlast]
    rcases readChunk_ends (s := { s with reader := ⟨p, _⟩ }) h hp hlast hroom with ⟨s', hs', hadv⟩ | ⟨q, hq, hfails⟩
    · refine .inl ⟨s', hs', hadv.parent, hadv.length_data, hadv.le, ?_, ?_, hadv.splits.trans hsplits.symm⟩
      · exact hadv.bytesRead.trans (by dsimp only; omega)
      · exact hadv.lt.trans_le (by dsimp only; omega)
    · exact .inr ⟨q, hq, .inr ⟨hfails.1, fun h => hfails.2 (hsplits.1 h)⟩⟩

/-- What a read of a span of `n` bytes comes to: it fills its span, or comes to the end of the body, or fails. -/
def ReadOutcome (e : ErrorCondition) (P : σ → Prop) (r : ChunkedReader σ) (n : ℕ)
    (q : Result × Bytes × ChunkedReader σ) : Prop :=
  (q.1 = ⟨n, none⟩ ∧ P q.2.2.parent ∧
      n + (Reader.content q.2.2.parent).length ≤ (Reader.content r.parent).length ∧
      (SplitsFrom q.2.2.currentChunkSize (Reader.content q.2.2.parent) ↔
        SplitsFrom r.currentChunkSize (Reader.content r.parent))) ∨
    (q.1.err = none ∧ q.1.count < n ∧ SplitsFrom r.currentChunkSize (Reader.content r.parent)) ∨
    ((∃ x, q.1.err = some x ∧ Rejects e x) ∧ ¬SplitsFrom r.currentChunkSize (Reader.content r.parent))

theorem read_ends (h : Ends e P) (hr : P r.parent) (data : Bytes) :
    ∃ q, r.read data = some q ∧ ReadOutcome e P r data.length q := by
  refine Loop.run_total
    (fun s : State σ => P s.reader.parent ∧ s.data.length = data.length ∧ s.bytesRead ≤ s.data.length ∧
      s.bytesRead + (Reader.content s.reader.parent).length ≤ (Reader.content r.parent).length ∧
      (SplitsFrom s.reader.currentChunkSize (Reader.content s.reader.parent) ↔
        SplitsFrom r.currentChunkSize (Reader.content r.parent)))
    (ReadOutcome e P r data.length) (fun s => (Reader.content s.reader.parent).length) ?_
    (s := ⟨r, 0, data⟩) ⟨hr, rfl, Nat.zero_le _, (Nat.zero_add _).le, Iff.rfl⟩ (Nat.lt_succ_of_le (h.fuel hr))
  rintro s ⟨hs, hlen, hle, hbytes, hsplits⟩
  by_cases hroom : s.bytesRead < s.data.length
  · rcases readTurn_ends h hs hroom with ⟨s', hturn, hadv⟩ | ⟨q, hturn, ⟨hq, haccept⟩ | ⟨herr, hnot⟩⟩
    · exact .inl ⟨s', hturn, ⟨hadv.parent, hadv.length_data.trans hlen, hadv.le, hadv.bytesRead.trans hbytes,
        hadv.splits.trans hsplits⟩, hadv.lt⟩
    · refine .inr ⟨q, hturn, .inr (.inl ?_)⟩
      rw [hq]
      exact ⟨rfl, hlen ▸ hroom, hsplits.1 haccept⟩
    · exact .inr ⟨q, hturn, .inr (.inr ⟨herr, fun h => hnot (hsplits.2 h)⟩)⟩
  · have hfull : s.bytesRead = data.length := by omega
    have hturn : readTurn s = some (.done (⟨s.bytesRead, none⟩, s.data, s.reader)) := by rw [readTurn, if_neg hroom]
    rw [hfull] at hturn hbytes
    exact .inr ⟨_, hturn, .inl ⟨rfl, hs, hbytes, hsplits⟩⟩

/-- Reads into spans up to the first one that is not filled, or comes with an error. -/
def drain (r : ChunkedReader σ) : List Bytes → Option (Option ErrorCondition × ChunkedReader σ)
  | [] => some (none, r)
  | data :: datas => do
    let (res, _, r) ← r.read data
    if res.err.isSome ∨ res.count < data.length then some (res.err, r) else r.drain datas

/-- Reads for more than there is come to the end of a text that is accepted, and else to an error. -/
theorem drain_ends (h : Ends e P) (hr : P r.parent) {spans : List Bytes}
    (hspans : (Reader.content r.parent).length < spans.flatten.length) :
    ∃ err r', r.drain spans = some (err, r') ∧ (∀ x ∈ err, Rejects e x) ∧
      (err = none ↔ SplitsFrom r.currentChunkSize (Reader.content r.parent)) := by
  induction spans generalizing r with
  | nil => exact absurd hspans (Nat.not_lt_zero _)
  | cons data spans ih =>
    rw [List.flatten_cons, List.length_append] at hspans
    obtain ⟨⟨res, data', r₁⟩, hread, ⟨hres, hr₁, hlen, hsplits⟩ | ⟨herr, hcount, hsplits⟩ | ⟨⟨x, herr, hx⟩, hnot⟩⟩ :=
      read_ends h hr data
    all_goals dsimp only at *
    · subst hres
      obtain ⟨err, r', hdrain, hrejects, haccepts⟩ := ih hr₁ (by omega)
      refine ⟨err, r', ?_, hrejects, haccepts.trans hsplits⟩
      rw [drain, hread, Option.bind_eq_bind, Option.bind_some]
      dsimp only
      rw [if_neg (by simp), hdrain]
    · refine ⟨none, r₁, ?_, by simp, iff_of_true rfl hsplits⟩
      rw [drain, hread, Option.bind_eq_bind, Option.bind_some]
      dsimp only
      rw [if_pos (.inr hcount), herr]
    · refine ⟨some x, r₁, ?_, by simpa using hx, iff_of_false (by simp) hnot⟩
      rw [drain, hread, Option.bind_eq_bind, Option.bind_some]
      dsimp only
      rw [if_pos (.inl (by rw [herr]; rfl)), herr]

end Reading

end ChunkedReader

/-! ## Bodies -/

/-- The text starts with a body in chunks. -/
def IsBody (t : Bytes) : Prop := ∃ last chunks rest, IsZero last ∧ t = bodyText last chunks ++ rest

section Bodies

variable {t : Bytes} {blocks : List Block}

/-- A body falls into exact blocks. -/
theorem exists_splits_of_isBody (h : IsBody t) : ∃ blocks, Splits t blocks ∧ ∀ b ∈ blocks, b.Exact := by
  obtain ⟨last, chunks, rest, hlast, rfl⟩ := h
  have hcrlf : ∀ rest, IsEnding crlf rest := fun rest => .inl ⟨13, 10, rfl, .inl rfl⟩
  induction chunks with
  | nil =>
    refine ⟨[⟨last, [], crlf⟩], .last hlast.1.2 (by rw [hlast.2, Nat.zero_mod]) (hcrlf rest) (by simp [bodyText]), ?_⟩
    simpa using ⟨hlast.1.1, by rw [hlast.2]; decide, rfl⟩
  | cons c chunks ih =>
    obtain ⟨blocks, hsplits, hexact⟩ := ih
    refine ⟨⟨c.size, c.data, crlf⟩ :: blocks, .chunk c.isNumeral.2 ?_ c.data_ne_nil (hcrlf _) hsplits ?_, ?_⟩
    · rw [c.value_eq, Nat.mod_eq_of_lt c.data_lt]
    · rw [bodyText_cons]
      simp
    · exact List.forall_mem_cons.2 ⟨⟨c.isNumeral.1, by rw [c.value_eq]; exact c.data_lt, rfl⟩, hexact⟩

/-- Exact blocks are a body. -/
theorem isBody_of_splits (h : Splits t blocks) (hexact : ∀ b ∈ blocks, b.Exact) : IsBody t := by
  induction h with
  | @last t size ending rest hsize hzero hending ht =>
    obtain ⟨hne, hlt, hcrlf⟩ := hexact _ List.mem_cons_self
    rw [Nat.mod_eq_of_lt hlt] at hzero
    refine ⟨size, [], rest, ⟨⟨hne, hsize⟩, hzero⟩, ?_⟩
    rw [ht, show ending = crlf from hcrlf]
    simp [bodyText]
  | @chunk t size data ending rest blocks hsize hdata hne hending hrest ht ih =>
    obtain ⟨⟨hsize_ne, hlt, hcrlf⟩, hexact⟩ := List.forall_mem_cons.1 hexact
    obtain ⟨last, chunks, rest, hlast, rfl⟩ := ih hexact
    rw [Nat.mod_eq_of_lt hlt] at hdata
    refine ⟨last, ⟨size, data, ⟨hsize_ne, hsize⟩, hdata, hne, hdata ▸ hlt⟩ :: chunks, rest, hlast, ?_⟩
    rw [ht, bodyText_cons, show ending = crlf from hcrlf]
    simp

/-- The texts that fall into blocks are the bodies, if and only if the blocks of the text are exact. -/
theorem splits_iff_isBody_iff :
    ((∃ blocks, Splits t blocks) ↔ IsBody t) ↔ ∀ blocks, Splits t blocks → ∀ b ∈ blocks, b.Exact := by
  constructor
  · intro h blocks hsplits
    obtain ⟨blocks', hsplits', hexact⟩ := exists_splits_of_isBody (h.1 ⟨blocks, hsplits⟩)
    rw [hsplits.unique hsplits']
    exact hexact
  · intro h
    constructor
    · rintro ⟨blocks, hsplits⟩
      exact isBody_of_splits hsplits (h blocks hsplits)
    · intro hbody
      obtain ⟨blocks, hsplits, -⟩ := exists_splits_of_isBody hbody
      exact ⟨blocks, hsplits⟩

end Bodies

namespace ChunkedReader

/-- On a parent that fills its reads and ends in the error `e`, reads for more than there is come to an end, without
    an error or with that of the reader or of the parent. They do so without an error exactly if the text is a body
    in chunks, if and only if every block the text falls into has a size that is a number, and an end of line. -/
theorem drain_isBody_iff {σ : Type*} [Reader σ Byte ErrorCondition] [LawfulReader σ] {P : σ → Prop}
    {e : ErrorCondition} (h : Ends e P) (s : σ) (hs : P s) (spans : List Bytes)
    (hspans : (Reader.content s).length < spans.flatten.length) :
    ∃ err r, (new s).drain spans = some (err, r) ∧ (∀ x ∈ err, x = .errc .illegalByteSequence ∨ x = e) ∧
      ((err = none ↔ IsBody (Reader.content s)) ↔
        ∀ blocks, Splits (Reader.content s) blocks → ∀ b ∈ blocks, b.Exact) := by
  obtain ⟨err, r, hdrain, hrejects, haccepts⟩ := drain_ends (r := new s) h hs hspans
  refine ⟨err, r, hdrain, hrejects, ?_⟩
  rw [haccepts, new, splitsFrom_zero]
  exact splits_iff_isBody_iff

/-- A chunk of two bytes, read one by one. -/
theorem drain_isBody_iff_two :
    let text := sv "2" ++ crlf ++ (sv "ab" ++ crlf) ++ (sv "0" ++ crlf ++ crlf)
    ∃ err r, (new (⟨text, [], some .closed⟩ : Source)).drain (List.replicate 14 [0]) = some (err, r) ∧
      (∀ x ∈ err, x = .errc .illegalByteSequence ∨ x = .closed) ∧
      ((err = none ↔ IsBody text) ↔ ∀ blocks, Splits text blocks → ∀ b ∈ blocks, b.Exact) :=
  drain_isBody_iff (Source.ends .closed)
    (⟨sv "2" ++ crlf ++ (sv "ab" ++ crlf) ++ (sv "0" ++ crlf ++ crlf), [], some .closed⟩ : Source) ⟨rfl, rfl⟩
    (List.replicate 14 [0]) (by decide)

/-- Two ends of line are accepted, although there is no size in front of the first one. -/
theorem drain_no_size :
    ¬∀ (s : Source) (e : ErrorCondition) (spans : List Bytes), s.script = [] → s.endErr = some e →
      s.pending.length < spans.flatten.length →
      ∃ err r, (new s).drain spans = some (err, r) ∧ (err = none ↔ IsBody s.pending) := by
  intro h
  obtain ⟨err, r, hdrain, hbody⟩ := h ⟨crlf ++ crlf, [], some .closed⟩ .closed [[0, 0, 0, 0, 0]] rfl rfl (by decide)
  have hnone : (new (⟨crlf ++ crlf, [], some .closed⟩ : Source)).drain [[0, 0, 0, 0, 0]] =
      some (none, ⟨⟨[], [], some .closed⟩, 0⟩) := by decide +kernel
  cases hnone.symm.trans hdrain
  obtain ⟨blocks, hsplits, hexact⟩ := exists_splits_of_isBody (hbody.1 rfl)
  have hlast : Splits (crlf ++ crlf) [⟨[], [], crlf⟩] :=
    .last (by simp) (by decide) (.inl ⟨13, 10, rfl, .inl rfl⟩) rfl
  rw [hsplits.unique hlast] at hexact
  exact (hexact _ List.mem_cons_self).size_ne_nil rfl

end ChunkedReader

end Cppnet.Http
