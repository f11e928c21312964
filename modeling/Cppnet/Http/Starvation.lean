import Cppnet.Http.ChunkGrammar
import Cppnet.Io.StringReader

/-!
# Bodies that end early

A `chunked_reader` leaves the data of a chunk only when there is none left of it, or on an error of its parent. A
`string_reader` reports no error at its end, and neither does a `buffered_reader` on it: where the string ends within
the data of a chunk, a read goes on for ever, unless its span is full before.

The texts from which a read starves are described by `Starves`. With a `buffered_reader` of a capacity of one there
are more of them: at the end of a chunk two bytes are asked for at once, and if there is none, that read of the parent
goes on for ever.
-/

namespace Cppnet.Http

open Lib Io

/-! ## Texts that end early -/

/-- With `left` bytes to come of a chunk, a read of `n` bytes runs out of data: the text ends within a chunk. If
    `pair` does not hold, it may also end behind the data of a chunk, or behind the size of the last one. -/
inductive Starves (pair : Prop) : ℕ → Bytes → ℕ → Prop
  | data {left n : ℕ} {t : Bytes} (hleft : t.length < left) (hn : t.length < n) : Starves pair left t n
  | noEnd {left n : ℕ} {t : Bytes} (hpair : ¬pair) (hleft : left ≠ 0) (hn : left ≤ n) (ht : t.length = left) :
      Starves pair left t n
  | chunk {left n : ℕ} {t ending rest : Bytes} (hleft : left ≠ 0) (hn : left < n) (hle : left ≤ t.length)
      (ht : t.drop left = ending ++ rest) (hending : IsEnding ending rest) (hrest : Starves pair 0 rest (n - left)) :
      Starves pair left t n
  | noLastEnd {n : ℕ} {t size : Bytes} (hpair : ¬pair) (hn : 0 < n) (hsize : ∀ c ∈ size, (digit 10 c).isSome)
      (hzero : numeralValue 10 (digits 10 size) % 2 ^ 64 = 0) (ht : t = size ++ (crlf ++ [])) : Starves pair 0 t n
  | size {n : ℕ} {t size rest : Bytes} (hsize : ∀ c ∈ size, (digit 10 c).isSome)
      (hne : numeralValue 10 (digits 10 size) % 2 ^ 64 ≠ 0)
      (hrest : Starves pair (numeralValue 10 (digits 10 size) % 2 ^ 64) rest n)
      (ht : t = size ++ (crlf ++ rest)) : Starves pair 0 t n

section Texts

variable {pair : Prop} {left n : ℕ} {t size : Bytes}

/-- A span without room is full. -/
theorem not_starves_full : ¬Starves pair left t 0 := by
  intro h
  generalize hn : 0 = n at h
  induction h with
  | data _ hn' => omega
  | noEnd _ hleft hn' _ => omega
  | chunk _ hn' => omega
  | noLastEnd _ hn' => omega
  | size _ _ _ _ ih => exact ih hn

/-- Behind some of the data. -/
theorem starves_drop {k : ℕ} (hk : k < left) (hle : k ≤ t.length) (hn : k ≤ n) :
    Starves pair (left - k) (t.drop k) (n - k) ↔ Starves pair left t n := by
  have hlen : (t.drop k).length = t.length - k := List.length_drop
  have hdrop : (t.drop k).drop (left - k) = t.drop left := by rw [List.drop_drop, Nat.add_sub_cancel' hk.le]
  have hsub : n - k - (left - k) = n - left := by omega
  constructor
  · intro h
    generalize hleft' : left - k = left' at h
    cases h with
    | data hleft hn' => exact .data (by omega) (by omega)
    | noEnd hpair _ hn' ht => exact .noEnd hpair (by omega) (by omega) (by omega)
    | chunk _ hn' _ ht hending hrest =>
      rw [← hleft', hdrop] at ht
      rw [← hleft', hsub] at hrest
      exact .chunk (by omega) (by omega) (by omega) ht hending hrest
    | noLastEnd => omega
    | size => omega
  · intro h
    cases h with
    | data hleft hn' => exact .data (by omega) (by omega)
    | noEnd hpair _ hn' ht => exact .noEnd hpair (by omega) (by omega) (by omega)
    | chunk _ hn' _ ht hending hrest =>
      exact .chunk (by omega) (by omega) (by omega) (hdrop.trans ht) hending (by rwa [hsub])
    | noLastEnd => omega
    | size => omega

/-- Behind all of it, where the ending is accepted. -/
theorem starves_end {ending rest : Bytes} (hleft : left ≠ 0) (hle : left ≤ t.length) (hn : left ≤ n)
    (ht : t.drop left = ending ++ rest) (hending : IsEnding ending rest) :
    Starves pair 0 rest (n - left) ↔ Starves pair left t n := by
  constructor
  · intro h
    refine .chunk hleft (Nat.lt_of_not_le fun hge => ?_) hle ht hending h
    rw [Nat.sub_eq_zero_of_le hge] at h
    exact not_starves_full h
  · intro h
    cases h with
    | data => omega
    | noEnd _ _ _ ht' =>
      rw [List.drop_eq_nil_of_le ht'.le] at ht
      rcases hending with ⟨a, b, rfl, -⟩ | ⟨rfl, -⟩ <;> cases ht
    | chunk _ _ _ ht' hending' hrest =>
      rw [(hending.unique hending' (ht.symm.trans ht')).2]
      exact hrest
    | noLastEnd => exact absurd rfl hleft
    | size => exact absurd rfl hleft

/-- And where it is not. -/
theorem not_starves_end (hleft : left ≠ 0) (hle : left ≤ t.length) (hpair : t.drop left = [] → pair)
    (hnot : ¬∃ ending rest, t.drop left = ending ++ rest ∧ IsEnding ending rest) : ¬Starves pair left t n := by
  intro h
  cases h with
  | data => omega
  | noEnd hpair' _ _ ht => exact hpair' (hpair (List.drop_eq_nil_of_le ht.le))
  | chunk _ _ _ ht hending => exact hnot ⟨_, _, ht, hending⟩
  | noLastEnd => exact hleft rfl
  | size => exact hleft rfl

/-- Where there is no size. -/
theorem not_starves_zero (h : ∀ size rest, (∀ c ∈ size, (digit 10 c).isSome) → t ≠ size ++ (crlf ++ rest)) :
    ¬Starves pair 0 t n := by
  intro hstarves
  cases hstarves with
  | data hleft => omega
  | noEnd _ hleft => exact hleft rfl
  | chunk hleft => exact hleft rfl
  | noLastEnd _ _ hsize _ ht => exact h _ _ hsize ht
  | size hsize _ _ ht => exact h _ _ hsize ht

/-- Behind the size of the last chunk. -/
theorem not_starves_last (hsize : ∀ c ∈ size, (digit 10 c).isSome)
    (hzero : numeralValue 10 (digits 10 size) % 2 ^ 64 = 0) (hpair : t = [] → pair) :
    ¬Starves pair 0 (size ++ (crlf ++ t)) n := by
  intro hstarves
  generalize ht : size ++ (crlf ++ t) = t' at hstarves
  cases hstarves with
  | data hleft => omega
  | noEnd _ hleft => exact hleft rfl
  | chunk hleft => exact hleft rfl
  | noLastEnd hpair' _ hsize' _ ht' => exact hpair' (hpair (size_unique hsize hsize' (ht.trans ht')).2)
  | size hsize' hne _ ht' =>
    obtain ⟨rfl, -⟩ := size_unique hsize hsize' (ht.trans ht')
    exact hne hzero

/-- Behind the size of another one. -/
theorem starves_size (hsize : ∀ c ∈ size, (digit 10 c).isSome)
    (hne : numeralValue 10 (digits 10 size) % 2 ^ 64 ≠ 0) :
    Starves pair (numeralValue 10 (digits 10 size) % 2 ^ 64) t n ↔ Starves pair 0 (size ++ (crlf ++ t)) n := by
  constructor
  · exact fun h => .size hsize hne h rfl
  · intro hstarves
    generalize ht : size ++ (crlf ++ t) = t' at hstarves
    cases hstarves with
    | data hleft => omega
    | noEnd _ hleft => exact absurd rfl hleft
    | chunk hleft => exact absurd rfl hleft
    | noLastEnd _ _ hsize' hzero ht' =>
      obtain ⟨rfl, -⟩ := size_unique hsize hsize' (ht.trans ht')
      exact absurd hzero hne
    | size hsize' _ hrest ht' =>
      obtain ⟨rfl, rfl⟩ := size_unique hsize hsize' (ht.trans ht')
      exact hrest

end Texts

/-! ## Reads that starve -/

namespace ChunkedReader

section Dry

variable {σ : Type*} [Reader σ Byte ErrorCondition] [LawfulReader σ] {P : σ → Prop} {err : Option ErrorCondition}
  {ok : ℕ → Prop} {s : State σ}

/-- The text from which the loop of `read` goes on. -/
def Starved (pair : Prop) (s : State σ) : Prop :=
  Starves pair s.reader.currentChunkSize (Reader.content s.reader.parent) (s.data.length - s.bytesRead)

/-- What a turn comes to: it goes on, and starves if and only if it did before; or leaves the loop, and does not
    starve; or never comes back, and does. -/
def TurnOutcome (pair : Prop) (P : σ → Prop) (s : State σ)
    (turn : Option (Turn (State σ) (Result × Bytes × ChunkedReader σ))) : Prop :=
  (∃ s', turn = some (.next s') ∧ P s'.reader.parent ∧ (Starved pair s' ↔ Starved pair s) ∧
      (¬Starved pair s → (Reader.content s'.reader.parent).length < (Reader.content s.reader.parent).length)) ∨
    (∃ q, turn = some (.done q) ∧ ¬Starved pair s) ∨ turn = none ∧ Starved pair s

/-- The end of a chunk all of which has been read. -/
theorem endTurn_dry (h : RunsDry none ok P) (hok : ok 0) (hok' : ok 1) {data : Bytes} {p : σ} (hp : P p)
    (hsize : s.reader.currentChunkSize ≠ 0)
    (hle : s.reader.currentChunkSize ≤ (Reader.content s.reader.parent).length)
    (hroom : s.reader.currentChunkSize ≤ s.data.length - s.bytesRead)
    (hrest : Reader.content p = (Reader.content s.reader.parent).drop s.reader.currentChunkSize)
    (hlen : data.length = s.data.length) :
    TurnOutcome (ok 2) P s
      ((validateEndOfChunk ⟨p, 0⟩).map (endTurn (s.bytesRead + s.reader.currentChunkSize) data)) := by
  have hcontent := congrArg List.length hrest
  rw [List.length_drop] at hcontent
  by_cases hpair : Reader.content p = [] → ok 2
  · rcases validateEndOfChunk_dry (r := ⟨p, 0⟩) h hok hok' hp hpair with
      ⟨ending, p', hvalid, hp', hc, hending⟩ | ⟨x, r', hvalid, -, hnot⟩
    · rw [hvalid]
      dsimp only at hc
      have hc' := congrArg List.length hc
      rw [List.length_append] at hc'
      rw [hrest] at hc
      refine .inl ⟨⟨⟨p', 0⟩, s.bytesRead + s.reader.currentChunkSize, data⟩, rfl, hp', ?_, fun _ => ?_⟩
      · have hend : Starves (ok 2) 0 _ _ ↔ Starves (ok 2) _ _ _ := starves_end hsize hle hroom hc hending
        rw [Starved, Starved, ← hend]
        dsimp only
        rw [hlen, Nat.sub_add_eq]
      · dsimp only
        omega
    · rw [hvalid]
      dsimp only at hnot
      rw [hrest] at hpair hnot
      exact .inr (.inl ⟨_, rfl, not_starves_end hsize hle hpair hnot⟩)
  · -- Two bytes are asked for where there is none.
    obtain ⟨hnil, hpair⟩ := Classical.not_imp.1 hpair
    have hread : Reader.read p [0, 0] = none := h.hangs hp (by simpa [hnil] using hpair)
    have hvalid : validateEndOfChunk (⟨p, 0⟩ : ChunkedReader σ) = none := by
      rw [validateEndOfChunk, hread]
      rfl
    rw [hvalid]
    rw [hnil, List.length_nil] at hcontent
    exact .inr (.inr ⟨rfl, .noEnd hpair hsize hroom (by omega)⟩)

/-- The next read of the data of a chunk. -/
theorem readChunk_dry (h : RunsDry none ok P) (hok : ok 0) (hok' : ok 1) (hs : P s.reader.parent)
    (hsize : s.reader.currentChunkSize ≠ 0) (hroom : s.bytesRead < s.data.length) :
    TurnOutcome (ok 2) P s (readChunk s) := by
  set amount := min (s.data.length - s.bytesRead) s.reader.currentChunkSize with hamount
  have hspan : (subspan s.data s.bytesRead amount).length = amount := length_subspan (by omega)
  by_cases hmissing : ok (amount - (Reader.content s.reader.parent).length)
  swap
  · -- The read of the parent does not come back, for the text ends before.
    have hread : Reader.read s.reader.parent (subspan s.data s.bytesRead amount) = none :=
      h.hangs hs (by rwa [hspan])
    have hlt : (Reader.content s.reader.parent).length < amount := by
      refine Nat.lt_of_not_le fun hge => hmissing ?_
      rwa [Nat.sub_eq_zero_of_le hge]
    refine .inr (.inr ⟨?_, .data (by omega) (by omega)⟩)
    rw [readChunk, hread]
    rfl
  obtain ⟨piece, p, hread, hp⟩ := h.read_none (d := subspan s.data s.bytesRead amount) hs (by rwa [hspan])
  rw [hspan] at hread
  have hchunk := readChunk_of_read hread
  have hpiece := LawfulReader.delivers hread
  have hlen : (overwrite s.data s.bytesRead piece).length = s.data.length := length_overwrite_subspan hpiece.length_span
  have hrest := hpiece.rest
  dsimp only at hrest
  set n := min amount (Reader.content s.reader.parent).length with hn
  rw [hchunk]
  by_cases hend : s.reader.currentChunkSize - n = 0
  · -- This was the last of the chunk, and its end is read in the same turn.
    have hleft : n = s.reader.currentChunkSize := by omega
    rw [if_pos hend, hleft]
    rw [hleft] at hrest
    exact endTurn_dry h hok hok' hp hsize (by omega) (by omega) hrest hlen
  · rw [if_neg hend]
    have hcontent := congrArg List.length hrest
    rw [List.length_drop] at hcontent
    refine .inl ⟨_, rfl, hp, ?_, fun hstarved => ?_⟩
    · have hdrop : Starves (ok 2) _ _ _ ↔ Starves (ok 2) _ _ _ :=
        starves_drop (show n < s.reader.currentChunkSize by omega)
          (show n ≤ (Reader.content s.reader.parent).length by omega)
          (show n ≤ s.data.length - s.bytesRead by omega)
      rw [Starved, Starved, ← hdrop]
      dsimp only
      rw [hrest, hlen, Nat.sub_add_eq]
    · -- Nothing is read only at the end of the text.
      have hpos : 0 < n := by
        refine Nat.pos_of_ne_zero fun hzero => hstarved (.data ?_ ?_) <;> omega
      dsimp only
      omega

/-- A turn with room in the span. -/
theorem readTurn_dry (h : RunsDry none ok P) (hok : ok 0) (hok' : ok 1) (hs : P s.reader.parent)
    (hroom : s.bytesRead < s.data.length) : TurnOutcome (ok 2) P s (readTurn s) := by
  by_cases hzero : s.reader.currentChunkSize = 0
  swap
  · rw [readTurn_open hzero hroom]
    exact readChunk_dry h hok hok' hs hzero hroom
  rcases getNextChunkSize_dry h hok hok' hs with ⟨size, p, hnext, hp, hdigits, hc⟩ | ⟨x, r', hnext, -, hnot⟩
  swap
  · refine .inr (.inl ⟨(⟨s.bytesRead, some x⟩, s.data, r'), ?_, ?_⟩)
    · rw [readTurn, if_pos hroom, if_pos hzero, hnext]
      rfl
    · rw [Starved, hzero]
      exact not_starves_zero hnot
  by_cases hlast : numeralValue 10 (digits 10 size) % 2 ^ 64 = 0
  · -- The last chunk, and with it the end of the body.
    have hturn : readTurn s = (validateEndOfChunk ⟨p, numeralValue 10 (digits 10 size) % 2 ^ 64⟩).map
        fun q => .done (⟨s.bytesRead, q.1⟩, s.data, q.2) := by
      rw [readTurn, if_pos hroom, if_pos hzero, hnext, Option.bind_eq_bind, Option.bind_some]
      dsimp only
      rw [if_pos hlast]
      cases validateEndOfChunk (⟨p, numeralValue 10 (digits 10 size) % 2 ^ 64⟩ : ChunkedReader σ) <;> rfl
    have hstarved : Starved (ok 2) s ↔ ¬(Reader.content p = [] → ok 2) := by
      rw [Starved, hzero, hc]
      constructor
      · exact fun hstarves hpair => not_starves_last hdigits hlast hpair hstarves
      · intro hpair
        obtain ⟨hnil, hpair⟩ := Classical.not_imp.1 hpair
        exact .noLastEnd hpair (by omega) hdigits hlast (by rw [hnil])
    rw [hturn]
    by_cases hpair : Reader.content p = [] → ok 2
    · obtain ⟨q, hvalid⟩ : ∃ q, validateEndOfChunk ⟨p, numeralValue 10 (digits 10 size) % 2 ^ 64⟩ = some q := by
        rcases validateEndOfChunk_dry (r := ⟨p, numeralValue 10 (digits 10 size) % 2 ^ 64⟩) h hok hok' hp hpair with
          ⟨ending, p', hvalid, -⟩ | ⟨x, r', hvalid, -⟩
        · exact ⟨_, hvalid⟩
        · exact ⟨_, hvalid⟩
      rw [hvalid]
      exact .inr (.inl ⟨_, rfl, fun hs => hstarved.1 hs hpair⟩)
    · obtain ⟨hnil, hpair'⟩ := Classical.not_imp.1 hpair
      have hread : Reader.read p [0, 0] = none := h.hangs hp (by simpa [hnil] using hpair')
      rw [validateEndOfChunk, hread]
      exact .inr (.inr ⟨rfl, hstarved.2 hpair⟩)
  · rw [readTurn_chunk hzero hroom hnext hlast]
    have hstarves : Starved (ok 2) { s with reader := ⟨p, numeralValue 10 (digits 10 size) % 2 ^ 64⟩ } ↔
        Starved (ok 2) s := by
      rw [Starved, Starved, hzero, hc]
      exact starves_size hdigits hlast
    have hlen := congrArg List.length hc
    simp only [List.length_append] at hlen
    rcases readChunk_dry (s := { s with reader := ⟨p, _⟩ }) h hok hok' hp hlast hroom with
      ⟨s', hs', hp', hiff, hlt⟩ | ⟨q, hq, hnot⟩ | ⟨hnone, hstarved⟩
    · refine .inl ⟨s', hs', hp', hiff.trans hstarves, fun hnot => ?_⟩
      exact (hlt (hstarves.not.2 hnot)).trans_le (by dsimp only; omega)
    · exact .inr (.inl ⟨q, hq, hstarves.not.1 hnot⟩)
    · exact .inr (.inr ⟨hnone, hstarves.1 hstarved⟩)

/-- A read that starves never comes back. -/
theorem not_returns_of_starved (h : RunsDry none ok P) (hok : ok 0) (hok' : ok 1) (hs : P s.reader.parent)
    (hstarved : Starved (ok 2) s) (q : Result × Bytes × ChunkedReader σ) : ¬Loop.Returns readTurn s q := by
  intro hret
  have hroom : ∀ s : State σ, Starved (ok 2) s → s.bytesRead < s.data.length := by
    intro s hstarved
    refine Nat.lt_of_not_le fun hge => ?_
    rw [Starved, Nat.sub_eq_zero_of_le hge] at hstarved
    exact not_starves_full hstarved
  refine hret.invariant (fun s : State σ => P s.reader.parent ∧ Starved (ok 2) s) (fun _ => False) ?_ ?_ ⟨hs, hstarved⟩
  · rintro s₁ s₂ ⟨hs₁, hstarved₁⟩ hturn
    rcases readTurn_dry h hok hok' hs₁ (hroom s₁ hstarved₁) with ⟨s', hturn', hs', hiff, -⟩ | ⟨q, -, hnot⟩ | ⟨hnone, -⟩
    · cases hturn.symm.trans hturn'
      exact ⟨hs', hiff.2 hstarved₁⟩
    · exact absurd hstarved₁ hnot
    · cases hturn.symm.trans hnone
  · rintro s₁ q ⟨hs₁, hstarved₁⟩ hturn
    rcases readTurn_dry h hok hok' hs₁ (hroom s₁ hstarved₁) with ⟨s', hturn', -⟩ | ⟨q, -, hnot⟩ | ⟨hnone, -⟩
    · cases hturn.symm.trans hturn'
    · exact hnot hstarved₁
    · cases hturn.symm.trans hnone

/-- A read comes back if and only if it does not starve. -/
theorem read_dry (h : RunsDry none ok P) (hok : ok 0) (hok' : ok 1) {r : ChunkedReader σ} (hr : P r.parent)
    (data : Bytes) :
    (∃ q, r.read data = some q) ↔
      ¬Starves (ok 2) r.currentChunkSize (Reader.content r.parent) data.length := by
  constructor
  · rintro ⟨q, hread⟩ hstarves
    exact not_returns_of_starved (s := ⟨r, 0, data⟩) h hok hok' hr hstarves q (Loop.returns_of_run hread)
  · intro hnot
    obtain ⟨q, hread, -⟩ := Loop.run_total
      (fun s : State σ => P s.reader.parent ∧ ¬Starved (ok 2) s) (fun _ : Result × Bytes × ChunkedReader σ => True)
      (fun s => (Reader.content s.reader.parent).length) (fun s ⟨hs, hnot⟩ => by
        by_cases hroom : s.bytesRead < s.data.length
        · rcases readTurn_dry h hok hok' hs hroom with ⟨s', hturn, hs', hiff, hlt⟩ | ⟨q, hturn, -⟩ | ⟨-, hstarved⟩
          · exact .inl ⟨s', hturn, ⟨hs', hiff.not.2 hnot⟩, hlt hnot⟩
          · exact .inr ⟨q, hturn, trivial⟩
          · exact absurd hstarved hnot
        · exact .inr ⟨_, by rw [readTurn, if_neg hroom], trivial⟩)
      (s := ⟨r, 0, data⟩) ⟨hr, hnot⟩ (Nat.lt_succ_of_le (h.fuel hr))
    exact ⟨q, hread⟩

end Dry

/-- On a string, and on a string behind a buffered reader, a read into any span comes back if and only if it does not
    starve; and if it does, its loop never ends. -/
theorem read_string_iff_not_starves (r : ChunkedReader StringReader)
    (b : ChunkedReader (BufferedReader StringReader)) (hcap : 0 < b.parent.capacity)
    (hfits : b.parent.buf.length ≤ b.parent.capacity) (data : Bytes) :
    (((∃ q, r.read data = some q) ↔
        ¬Starves True r.currentChunkSize (Reader.content r.parent) data.length) ∧
      (Starves True r.currentChunkSize (Reader.content r.parent) data.length →
        ∀ q, ¬Loop.Returns readTurn ⟨r, 0, data⟩ q)) ∧
    ((∃ q, b.read data = some q) ↔
        ¬Starves (2 ≤ b.parent.capacity) b.currentChunkSize (Reader.content b.parent) data.length) ∧
      (Starves (2 ≤ b.parent.capacity) b.currentChunkSize (Reader.content b.parent) data.length →
        ∀ q, ¬Loop.Returns readTurn ⟨b, 0, data⟩ q) := by
  have hdry := BufferedReader.runsDry StringReader.runsDry hcap
  have hb : b.parent.Over (fun _ => True) b.parent.capacity := ⟨trivial, rfl, hfits⟩
  refine ⟨⟨read_dry StringReader.runsDry trivial trivial trivial data, fun hstarves => ?_⟩,
    read_dry hdry hcap.le hcap hb data, fun hstarves => ?_⟩
  · exact not_returns_of_starved (s := ⟨r, 0, data⟩) StringReader.runsDry trivial trivial trivial hstarves
  · exact not_returns_of_starved (s := ⟨b, 0, data⟩) hdry hcap.le hcap hb hstarves

/-- A chunk of three bytes: two of them are read from a string that ends behind these, but not from
    one behind a buffered reader that ends one before. -/
theorem read_string_iff_not_starves_two :
    ¬Starves True 0 (sv "3\r\nab") 2 ∧
      ¬∃ q, (new (BufferedReader.new (StringReader.new (sv "3\r\na")) 4)).read [0, 0] = some q := by
  have hread : (new (StringReader.new (sv "3\r\nab"))).read [0, 0] =
      some (⟨2, none⟩, sv "ab", ⟨⟨sv "3\r\nab", 5, by decide⟩, 1⟩) := by decide +kernel
  have hsize : ∀ c ∈ sv "3", (digit 10 c).isSome := by decide
  have hdata : Starves (2 ≤ 4) (numeralValue 10 (digits 10 (sv "3")) % 2 ^ 64) (sv "a") 2 :=
    .data (by decide) (by decide)
  obtain ⟨⟨hstring, -⟩, hbuffered, -⟩ := read_string_iff_not_starves (new (StringReader.new (sv "3\r\nab")))
    (new (BufferedReader.new (StringReader.new (sv "3\r\na")) 4)) (by decide) (by decide) [0, 0]
  exact ⟨hstring.1 ⟨_, hread⟩, fun h => hbuffered.1 h (.size hsize (by decide) hdata (by decide))⟩

/-- A chunk that ends early, read from a string. -/
theorem read_string_starves :
    ¬∀ view data : Bytes, ∃ q, (new (StringReader.new view)).read data = some q := by
  intro h
  obtain ⟨q, hread⟩ := h (sv "3\r\nab") [0, 0, 0]
  have hnone : (new (StringReader.new (sv "3\r\nab"))).read [0, 0, 0] = none := by decide +kernel
  rw [hnone] at hread
  cases hread

end ChunkedReader

end Cppnet.Http
