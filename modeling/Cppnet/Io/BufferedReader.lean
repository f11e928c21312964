import Cppnet.Io.Basic
import Cppnet.Lib.Loop

/-!
# `buffered_reader`

`io/buffered_reader.cpp`: a reader keeping up to `capacity` bytes it has read
ahead of its caller in `buf`. A read is served

* from the buffer alone, if it holds enough;
* else by emptying the buffer, then reading from the parent straight into the
  span, in pieces of `capacity` bytes, for as long as more than that is missing
  (`directTurn`), then by refilling the buffer once (`fill`) and copying what is
  missing, or what there is of it.

What a buffered reader has still to hand out is its buffer followed by what its
parent has still to hand out. Reads are deliveries of that
(`read_delivers`): a buffered reader is a lawful reader on the stream of its
parent, and a sequence of reads and peeks loses, repeats and reorders nothing
(`runCalls_faithful`).
-/

namespace Cppnet.Io

open Lib

/-- `buffered_reader`, on a parent with the states `σ`. The capacity of the
    vector `buf` is that it is constructed with. -/
structure BufferedReader (σ : Type*) where
  impl : σ
  buf : Bytes
  capacity : ℕ
  err : Option ErrorCondition
  deriving DecidableEq, Repr

namespace BufferedReader

variable {σ : Type*}

/-- The constructor: an empty buffer of capacity `bufsize`. -/
def new (impl : σ) (bufsize : ℕ) : BufferedReader σ := ⟨impl, [], bufsize, none⟩

/-- The default `bufsize` of the constructor. -/
def defaultBufsize : ℕ := 1024

section Model

variable [Reader σ Byte ErrorCondition]

/-- `fill`: reads once from the parent, behind what is in the buffer. -/
def fill (r : BufferedReader σ) : Option (BufferedReader σ) :=
  if r.buf.length = r.capacity then some r
  else do
    let start := r.buf.length
    let readMore := r.capacity - start
    let buf := resize 0 r.buf r.capacity
    let (res, data, impl) ← Reader.read r.impl (subspan buf start readMore)
    some { r with impl, buf := resize 0 (overwrite buf start data) (start + res.count), err := res.err }

/-- The state of the loop in `read` that bypasses the buffer. -/
structure Direct (σ : Type*) where
  impl : σ
  total : ℕ
  data : Bytes

/-- One turn of the loop in `read` that bypasses the buffer. It leaves the loop
    with the result of `read` on an error, and with `none` otherwise. -/
def directTurn (capacity : ℕ) (s : Direct σ) :
    Option (Turn (Direct σ) (Option Result × Direct σ)) :=
  if s.data.length - s.total > capacity then do
    let (res, data, impl) ← Reader.read s.impl (subspan s.data s.total capacity)
    let data := overwrite s.data s.total data
    if res.err.isSome then
      some (.done (some ⟨s.total + res.count, res.err⟩, ⟨impl, s.total + res.count, data⟩))
    else some (.next ⟨impl, s.total + res.count, data⟩)
  else some (.done (none, s))

/-- The end of `read`: one refill of the buffer for what is missing. -/
def readRest (r : BufferedReader σ) (total : ℕ) (data : Bytes) :
    Option (Result × Bytes × BufferedReader σ) :=
  let leftover := data.length - total
  if leftover > 0 then do
    let r ← r.fill
    let available := min leftover r.buf.length
    let data := overwrite data total (r.buf.take available)
    let total := total + available
    let buf := resize 0 (overwrite r.buf 0 (r.buf.drop available)) (r.buf.length - available)
    -- an error is only reported if the request could not be fulfilled
    some (⟨total, if available < leftover then r.err else none⟩, data, { r with buf })
  else some (⟨total, none⟩, data, r)

/-- `read`, into the span `data`: the result, and the span after it. -/
def read (r : BufferedReader σ) (data : Bytes) : Option (Result × Bytes × BufferedReader σ) :=
  if data = [] then some (⟨0, none⟩, data, r)
  else if data.length ≤ r.buf.length then
    let leftover := r.buf.length - data.length
    some (⟨data.length, none⟩, overwrite data 0 (r.buf.take data.length),
      { r with buf := resize 0 (overwrite r.buf 0 (r.buf.drop data.length)) leftover })
  else do
    let s : Direct σ := ⟨r.impl, r.buf.length, overwrite data 0 r.buf⟩
    let (res, s) ← Loop.run (directTurn r.capacity) (Reader.fuel r.impl + 1) s
    let r := { r with impl := s.impl, buf := [] }
    match res with
    | some res => some (res, s.data, r)
    | none => r.readRest s.total s.data

/-- `peek`: the next byte, and whether there is one. -/
def peek (r : BufferedReader σ) : Option ((Byte × Bool) × BufferedReader σ) :=
  match r.buf with
  | b :: _ => some ((b, true), r)
  | [] => do
    let r ← r.fill
    match r.buf with
    | b :: _ => some ((b, true), r)
    | [] => some ((0, false), r)

instance : Reader (BufferedReader σ) Byte ErrorCondition where
  read := read
  content r := r.buf ++ Reader.content r.impl
  fuel r := r.buf.length + Reader.fuel r.impl

/-- What is still to be handed out: the buffer, then what the parent still has. -/
theorem content_eq (r : BufferedReader σ) :
    Reader.content r = r.buf ++ Reader.content r.impl := rfl

end Model

/-- A read for which there is enough in the buffer. -/
theorem read_of_le [Reader σ Byte ErrorCondition] {r : BufferedReader σ} {data : Bytes}
    (h : data.length ≤ r.buf.length) :
    r.read data = some (⟨data.length, none⟩, r.buf.take data.length,
      { r with buf := r.buf.drop data.length }) := by
  have hspan : overwrite data 0 (r.buf.take data.length) = r.buf.take data.length := by
    rw [overwrite_zero, List.length_take_of_le h, List.drop_length, List.append_nil]
  rw [read]
  split_ifs with hnil
  · rw [hnil]
    rfl
  · dsimp only
    rw [hspan, resize_overwrite_drop]

/-- What a turn of the loop that bypasses the buffer can be: a read of the parent without an error,
    one with an error, or the end. -/
theorem directTurn_cases [Reader σ Byte ErrorCondition] {capacity : ℕ} {s : Direct σ}
    {t : Turn (Direct σ) (Option Result × Direct σ)} (h : directTurn capacity s = some t) :
    (∃ res data impl, Reader.read s.impl (subspan s.data s.total capacity) = some (res, data, impl) ∧
      res.err = none ∧ t = .next ⟨impl, s.total + res.count, overwrite s.data s.total data⟩) ∨
    (∃ res data impl, Reader.read s.impl (subspan s.data s.total capacity) = some (res, data, impl) ∧
      t = .done (some ⟨s.total + res.count, res.err⟩,
        ⟨impl, s.total + res.count, overwrite s.data s.total data⟩)) ∨
    t = .done (none, s) := by
  rw [directTurn] at h
  split at h
  · obtain ⟨⟨res, data, impl⟩, hread, h⟩ := Option.bind_eq_some_iff.1 h
    dsimp only at h
    split at h
    · cases h
      exact .inr (.inl ⟨res, data, impl, hread, rfl⟩)
    · next herr =>
      cases h
      exact .inl ⟨res, data, impl, hread, Option.not_isSome_iff_eq_none.1 herr, rfl⟩
  · cases h
    exact .inr (.inr rfl)

/-! ## Conservation -/

section Lawful

variable [Reader σ Byte ErrorCondition] [LawfulReader σ] {r r' : BufferedReader σ}

/-- A refill of a buffer that is not full is one read of the parent, appended to
    the buffer. -/
theorem fill_eq (hr : r.buf.length < r.capacity) :
    r.fill = (Reader.read r.impl (List.replicate (r.capacity - r.buf.length) 0)).map
      fun q => { r with impl := q.2.2, buf := r.buf ++ q.2.1.take q.1.count, err := q.1.err } := by
  have hspan : subspan (resize 0 r.buf r.capacity) r.buf.length (r.capacity - r.buf.length) =
      List.replicate (r.capacity - r.buf.length) 0 := by
    simp [subspan, resize, List.take_of_length_le hr.le]
  simp only [fill, if_neg hr.ne, hspan]
  cases hread : Reader.read r.impl (List.replicate (r.capacity - r.buf.length) 0) with
  | none => rfl
  | some q =>
    obtain ⟨res, data, impl⟩ := q
    have hd := LawfulReader.delivers hread
    have hcount := hd.le_span
    have hlen := hd.length_span
    simp only [List.length_replicate] at hcount hlen
    have hbuf : resize 0 (overwrite (resize 0 r.buf r.capacity) r.buf.length data)
        (r.buf.length + res.count) = r.buf ++ data.take res.count := by
      rw [resize_of_le (by simp [overwrite, resize, List.take_of_length_le hr.le]; omega)]
      simp only [overwrite, resize, List.take_of_length_le hr.le, List.take_left,
        List.append_assoc, List.take_length_add_append]
      rw [List.take_append_of_le_length (by omega)]
    exact congrArg (fun buf => some (BufferedReader.mk impl buf r.capacity res.err)) hbuf

/-- A refill moves bytes from the parent to the end of the buffer. -/
theorem fill_spec (h : r.fill = some r') (hr : r.buf.length ≤ r.capacity) :
    Reader.content r' = Reader.content r ∧ r'.capacity = r.capacity ∧
      r'.buf.length ≤ r.capacity := by
  rcases hr.lt_or_eq with hlt | heq
  · rw [fill_eq hlt, Option.map_eq_some_iff] at h
    obtain ⟨⟨res, data, impl⟩, hread, rfl⟩ := h
    have hd := LawfulReader.delivers hread
    have hcount := hd.le_span
    rw [List.length_replicate] at hcount
    refine ⟨?_, rfl, ?_⟩
    · rw [content_eq, List.append_assoc, hd.append_rest, content_eq]
    · simp only [List.length_append, List.length_take]
      omega
  · rw [fill, if_pos heq, Option.some.injEq] at h
    exact h ▸ ⟨rfl, rfl, hr⟩

/-- The loop that bypasses the buffer delivers from the parent into the span,
    behind what is there already. -/
theorem directTurn_delivers {capacity : ℕ} {c data : Bytes} {s s' : Direct σ} {res : Option Result}
    (h : Loop.Returns (directTurn capacity) s (res, s'))
    (hs : Delivers c (Reader.content s.impl) data s.data s.total) :
    Delivers c (Reader.content s'.impl) data s'.data s'.total ∧ ∀ x ∈ res, x.count = s'.total := by
  refine h.invariant (fun s => Delivers c (Reader.content s.impl) data s.data s.total)
    (fun q => Delivers c (Reader.content q.2.impl) data q.2.data q.2.total ∧
      ∀ x ∈ q.1, x.count = q.2.total) ?_ ?_ hs
  · intro s s' hs hb
    obtain ⟨res, d, impl, hread, -, ht⟩ | ⟨_, _, _, _, ht⟩ | ht := directTurn_cases hb <;> cases ht
    exact hs.sub (LawfulReader.delivers hread)
  · intro s q hs hb
    obtain ⟨_, _, _, _, _, ht⟩ | ⟨res, d, impl, hread, ht⟩ | ht := directTurn_cases hb <;> cases ht
    · exact ⟨hs.sub (LawfulReader.delivers hread), by simp⟩
    · exact ⟨hs, by simp⟩

/-- The end of a read delivers what is missing from the refilled buffer. -/
theorem readRest_delivers {total : ℕ} {c data₀ data data' : Bytes} {res : Result}
    (h : r.readRest total data = some (res, data', r')) (hr : r.buf = [])
    (hd : Delivers c (Reader.content r.impl) data₀ data total) :
    Delivers c (Reader.content r') data₀ data' res.count ∧ r'.capacity = r.capacity ∧
      r'.buf.length ≤ r.capacity := by
  rw [readRest] at h
  split at h
  · obtain ⟨r₁, hfill, h⟩ := Option.bind_eq_some_iff.1 h
    cases h
    obtain ⟨hc, hcap, hlen⟩ := fill_spec hfill (by simp [hr])
    rw [content_eq r, hr, List.nil_append] at hc
    rw [← hc] at hd
    set available := min (data.length - total) r₁.buf.length with hav
    have hle : available ≤ r₁.buf.length := min_le_right _ _
    have hspan : (subspan data total available).length = available := length_subspan (by omega)
    have hsub := hd.sub (Delivers.of_buffer (Reader.content r₁.impl) hle hspan.ge)
    rw [overwrite_zero, List.length_take_of_le hle, List.drop_eq_nil_of_le hspan.le,
      List.append_nil] at hsub
    simp only [content_eq, resize_overwrite_drop]
    exact ⟨hsub, hcap, by simp only [List.length_drop]; omega⟩
  · cases h
    rw [content_eq, hr, List.nil_append]
    exact ⟨hd, rfl, by simp⟩

/-- A read delivers the next bytes of the stream, and keeps the buffer within
    its capacity. -/
theorem read_spec {data data' : Bytes} {res : Result} (h : r.read data = some (res, data', r')) :
    Delivers (Reader.content r) (Reader.content r') data data' res.count ∧
      r'.capacity = r.capacity ∧ (r.buf.length ≤ r.capacity → r'.buf.length ≤ r.capacity) := by
  rw [read] at h
  split at h
  · cases h
    exact ⟨.refl _ _, rfl, id⟩
  split at h
  · next hle =>
    cases h
    rw [content_eq, content_eq, resize_overwrite_drop]
    exact ⟨.of_buffer _ hle le_rfl, rfl, fun hr => by simp only [List.length_drop]; omega⟩
  · next hle =>
    -- First what is in the buffer, then reads past it, and at last the rest through it.
    obtain ⟨⟨early, s⟩, hrun, h⟩ := Option.bind_eq_some_iff.1 h
    have h₀ : Delivers (Reader.content r) (Reader.content r.impl) data (overwrite data 0 r.buf)
        r.buf.length := by
      simpa [content_eq] using Delivers.of_buffer (Reader.content r.impl) le_rfl (by omega)
    obtain ⟨hd, hcount⟩ := directTurn_delivers (Loop.returns_of_run hrun) h₀
    cases early with
    | some x =>
      cases h
      rw [hcount _ rfl]
      exact ⟨hd, rfl, fun _ => Nat.zero_le _⟩
    | none =>
      obtain ⟨hd', hcap, hlen⟩ := readRest_delivers h rfl hd
      exact ⟨hd', hcap, fun _ => hlen⟩

instance : LawfulReader (BufferedReader σ) where
  delivers h := (read_spec h).1

/-- A peek hands out nothing, and finds the next byte if it finds one. -/
theorem peek_spec {b : Byte} {have_ : Bool} (h : r.peek = some ((b, have_), r')) :
    Reader.content r' = Reader.content r ∧ r'.capacity = r.capacity ∧
      (r.buf.length ≤ r.capacity → r'.buf.length ≤ r.capacity) ∧
      (have_ = true → ∃ rest, r'.buf = b :: rest) ∧ (have_ = false → b = 0 ∧ r'.buf = []) := by
  rw [peek] at h
  split at h
  · next hb =>
    cases h
    exact ⟨rfl, rfl, id, fun _ => ⟨_, hb⟩, by simp⟩
  · next hb =>
    obtain ⟨r₁, hfill, h⟩ := Option.bind_eq_some_iff.1 h
    obtain ⟨hc, hcap, hlen⟩ := fill_spec hfill (by simp [hb])
    split at h
    · next hb₁ =>
      cases h
      exact ⟨hc, hcap, fun _ => hlen, fun _ => ⟨_, hb₁⟩, by simp⟩
    · next hb₁ =>
      cases h
      exact ⟨hc, hcap, fun _ => hlen, by simp, fun _ => ⟨rfl, hb₁⟩⟩

end Lawful

/-! ## What the reads of the parent preserve -/

section Frame

variable [Reader σ Byte ErrorCondition] {r r' : BufferedReader σ} {P : σ → Prop}
  (hP : ∀ {s s' : σ} {d d' : Bytes} {res : Result}, P s → Reader.read s d = some (res, d', s') → P s')

include hP

theorem fill_preserves (h : r.fill = some r') (hr : P r.impl) : P r'.impl := by
  rw [fill] at h
  split at h
  · cases h
    exact hr
  · obtain ⟨⟨res, data, impl⟩, hread, h⟩ := Option.bind_eq_some_iff.1 h
    cases h
    exact hP hr hread

theorem directTurn_preserves {capacity : ℕ} {s s' : Direct σ} {res : Option Result}
    (h : Loop.Returns (directTurn capacity) s (res, s')) (hs : P s.impl) : P s'.impl := by
  refine h.invariant (fun s => P s.impl) (fun q => P q.2.impl) ?_ ?_ hs
  · intro s s' hs hb
    obtain ⟨res, d, impl, hread, -, ht⟩ | ⟨_, _, _, _, ht⟩ | ht := directTurn_cases hb <;> cases ht
    exact hP hs hread
  · intro s q hs hb
    obtain ⟨_, _, _, _, _, ht⟩ | ⟨res, d, impl, hread, ht⟩ | ht := directTurn_cases hb <;> cases ht
    · exact hP hs hread
    · exact hs

/-- A read preserves what the reads of the parent preserve. -/
theorem read_preserves {data data' : Bytes} {res : Result}
    (h : r.read data = some (res, data', r')) (hr : P r.impl) : P r'.impl := by
  rw [read] at h
  split at h
  · cases h
    exact hr
  split at h
  · cases h
    exact hr
  · obtain ⟨⟨early, s⟩, hrun, h⟩ := Option.bind_eq_some_iff.1 h
    have hs := directTurn_preserves hP (Loop.returns_of_run hrun) hr
    cases early with
    | some x =>
      cases h
      exact hs
    | none =>
      simp only [readRest] at h
      split at h
      · obtain ⟨r₁, hfill, h⟩ := Option.bind_eq_some_iff.1 h
        have hr₁ : P r₁.impl := fill_preserves hP hfill hs
        cases h
        exact hr₁
      · cases h
        exact hs

/-- A peek preserves what the reads of the parent preserve. -/
theorem peek_preserves {b : Byte × Bool} (h : r.peek = some (b, r')) (hr : P r.impl) :
    P r'.impl := by
  rw [peek] at h
  split at h
  · cases h
    exact hr
  · obtain ⟨r₁, hfill, h⟩ := Option.bind_eq_some_iff.1 h
    split at h <;> cases h <;> exact fill_preserves hP hfill hr

end Frame

/-! ## Prompt parents -/

section Prompt

variable [Reader σ Byte ErrorCondition] [LawfulReader σ] [PromptReader σ] {r : BufferedReader σ}

/-- A buffered reader on a prompt parent, with room for a byte. -/
structure Ready (r : BufferedReader σ) : Prop where
  prompt : PromptReader.Prompt r.impl
  capacity_pos : 0 < r.capacity
  fits : r.buf.length ≤ r.capacity

omit [LawfulReader σ] in
theorem ready_new {s : σ} {capacity : ℕ} (hs : PromptReader.Prompt s) (hc : 0 < capacity) :
    (new s capacity).Ready :=
  ⟨hs, hc, Nat.zero_le _⟩

theorem ready_source {s : Source} {capacity : ℕ} (hs : s.Prompt) (hc : 0 < capacity) :
    (new s capacity).Ready :=
  ready_new (show PromptReader.Prompt s from hs) hc

omit [LawfulReader σ] in
theorem length_content_le_fuel (r : BufferedReader σ) :
    (Reader.content r).length ≤ Reader.fuel r := by
  rw [content_eq, List.length_append]
  exact Nat.add_le_add_left (PromptReader.length_content_le_fuel r.impl) _

/-- A refill of an empty buffer finds a byte, if there is one. -/
theorem fill_ready (hr : r.Ready) (hbuf : r.buf = []) :
    ∃ r', r.fill = some r' ∧ r'.Ready ∧ Reader.content r' = Reader.content r ∧
      (r'.buf = [] → Reader.content r = []) := by
  have hlt : r.buf.length < r.capacity := by rw [hbuf]; exact hr.capacity_pos
  obtain ⟨res, data, impl, hread, hprompt, hpos⟩ :=
    PromptReader.read_prompt (List.replicate (r.capacity - r.buf.length) (0 : Byte)) hr.prompt
  have hfill := fill_eq hlt
  rw [hread, Option.map_some] at hfill
  obtain ⟨hc, hcap, hlen⟩ := fill_spec hfill hr.fits
  refine ⟨_, hfill, ⟨hprompt, hr.capacity_pos, hlen⟩, hc, fun hnil => ?_⟩
  by_contra hne
  rw [content_eq, hbuf, List.nil_append] at hne
  have hcount := hpos (by simp; omega) hne
  have hd := LawfulReader.delivers hread
  have htake := congrArg List.length hnil
  rw [hbuf, List.nil_append, List.length_take_of_le (hd.length_span ▸ hd.le_span)] at htake
  exact hcount.ne' htake

/-- A peek comes back, and shows the next byte unless there is none. -/
theorem peek_ready (hr : r.Ready) :
    ∃ b haveNext r', r.peek = some ((b, haveNext), r') ∧ r'.Ready ∧
      Reader.content r' = Reader.content r ∧
      ((haveNext = true ∧ ∃ rest, r'.buf = b :: rest) ∨
        (haveNext = false ∧ Reader.content r = [])) := by
  rw [peek]
  split
  · next hb => exact ⟨_, _, _, rfl, hr, rfl, .inl ⟨rfl, _, hb⟩⟩
  · next hb =>
    obtain ⟨r', hfill, hr', hc, hnil⟩ := fill_ready hr hb
    rw [hfill, Option.bind_eq_bind, Option.bind_some]
    split
    · next hb' => exact ⟨_, _, _, rfl, hr', hc, .inl ⟨rfl, _, hb'⟩⟩
    · next hb' => exact ⟨_, _, _, rfl, hr', hc, .inr ⟨rfl, hnil hb'⟩⟩

/-- A state `s` the loop that bypasses the buffer may reach from `s₀`, on a clean
    parent whose contents fill the span. -/
structure Direct.Fed (s s₀ : Direct σ) : Prop where
  clean : PromptReader.Clean s.impl
  le_total : s₀.total ≤ s.total
  total_le : s.total ≤ s.data.length
  length_data : s.data.length = s₀.data.length
  enough : s.data.length ≤ s.total + (Reader.content s.impl).length

omit [Reader σ Byte ErrorCondition] [LawfulReader σ] [PromptReader σ] in
theorem length_overwrite_buf {data : Bytes} (hbuf : r.buf.length < data.length) :
    (overwrite data 0 r.buf).length = data.length := by
  rw [overwrite_zero, List.length_append, List.length_drop]
  omega

omit [LawfulReader σ] in
/-- The state the loop starts from, behind what was in the buffer. -/
theorem fed_start (hclean : PromptReader.Clean r.impl) {data : Bytes}
    (hbuf : r.buf.length < data.length) (hlen : data.length ≤ (Reader.content r).length) :
    Direct.Fed ⟨r.impl, r.buf.length, overwrite data 0 r.buf⟩
      ⟨r.impl, r.buf.length, overwrite data 0 r.buf⟩ := by
  have hdata := length_overwrite_buf hbuf
  rw [content_eq, List.length_append] at hlen
  exact ⟨hclean, le_rfl, by dsimp only; omega, rfl, by dsimp only; omega⟩

theorem directTurn_fed {s₀ s : Direct σ} {capacity : ℕ} (hcap : 0 < capacity) (hs : s.Fed s₀)
    (hmore : s.data.length - s.total > capacity) :
    ∃ s', directTurn capacity s = some (.next s') ∧ s'.Fed s₀ ∧
      (Reader.content s'.impl).length < (Reader.content s.impl).length := by
  have hspan : (subspan s.data s.total capacity).length = capacity := length_subspan (by omega)
  have henough := hs.enough
  have hcontent : Reader.content s.impl ≠ [] := by
    rw [← List.length_pos_iff]
    omega
  have hne : subspan s.data s.total capacity ≠ [] := by
    rw [← List.length_pos_iff, hspan]
    exact hcap
  -- The stream is not at its end: something is read, and without an error.
  obtain ⟨res, data, impl, hread, -, hpos⟩ := PromptReader.read_prompt
    (subspan s.data s.total capacity) (PromptReader.prompt_of_clean hs.clean)
  obtain ⟨hclean, herr⟩ := PromptReader.err_of_clean hs.clean hread
  have hcount := hpos hne hcontent
  have hd := LawfulReader.delivers hread
  have hle_span := hd.le_span
  have hle_content := hd.le_content
  have hrest := hd.length_rest
  have hdata : (overwrite s.data s.total data).length = s.data.length := length_overwrite_subspan hd.length_span
  refine ⟨⟨impl, s.total + res.count, overwrite s.data s.total data⟩, ?_,
    ⟨hclean, Nat.le_add_right_of_le hs.le_total, ?_, hdata.trans hs.length_data, ?_⟩, ?_⟩
  · rw [directTurn, if_pos hmore]
    refine Option.bind_eq_some_iff.2 ⟨_, hread, ?_⟩
    dsimp only
    rw [herr hcontent]
    rfl
  all_goals
    dsimp only
    omega

/-- On a clean parent, the loop that bypasses the buffer ends without an error, as
    long as the stream does not. -/
theorem directTurn_run_fed {s : Direct σ} {capacity n : ℕ} (hcap : 0 < capacity) (hs : s.Fed s)
    (hn : (Reader.content s.impl).length < n) :
    ∃ s', Loop.run (directTurn capacity) n s = some (none, s') ∧ s'.Fed s ∧
      s'.data.length - s'.total ≤ capacity := by
  obtain ⟨⟨early, s'⟩, hrun, hearly, hs'⟩ := Loop.run_total (fun s' : Direct σ => s'.Fed s)
    (fun q : Option Result × Direct σ => q.1 = none ∧ q.2.Fed s ∧
      q.2.data.length - q.2.total ≤ capacity)
    (fun s' => (Reader.content s'.impl).length) (fun s' hs' => by
      by_cases hmore : s'.data.length - s'.total > capacity
      · exact .inl (directTurn_fed hcap hs' hmore)
      · exact .inr ⟨_, by rw [directTurn, if_neg hmore], rfl, hs', Nat.not_lt.1 hmore⟩) hs hn
  exact ⟨s', hearly ▸ hrun, hs'⟩

/-- A refill on a clean parent gives no error, if there is a byte to come. -/
theorem err_of_fill (hr : r.Ready) (hclean : PromptReader.Clean r.impl) (hbuf : r.buf = [])
    (hne : Reader.content r ≠ []) {r' : BufferedReader σ} (h : r.fill = some r') : r'.err = none := by
  rw [fill_eq (by rw [hbuf]; exact hr.capacity_pos), Option.map_eq_some_iff] at h
  obtain ⟨⟨res, data, impl⟩, hread, rfl⟩ := h
  rw [content_eq, hbuf, List.nil_append] at hne
  exact (PromptReader.err_of_clean hclean hread).2 hne

/-- On a clean parent, the end of a read comes back without an error and with a byte more, if some
    are missing and there is one to come. -/
theorem readRest_ready (hr : r.Ready) (hclean : PromptReader.Clean r.impl) (hbuf : r.buf = [])
    {total : ℕ} {data : Bytes} (hmore : total < data.length → Reader.content r ≠ []) :
    ∃ q, r.readRest total data = some q ∧ q.1.err = none ∧
      min data.length (total + 1) ≤ q.1.count := by
  rw [readRest]
  dsimp only
  by_cases hleft : data.length - total > 0
  · have hne := hmore (Nat.lt_of_sub_pos hleft)
    rw [if_pos hleft]
    obtain ⟨r', hfill, -, -, hnil⟩ := fill_ready hr hbuf
    have hbuf' := List.length_pos_iff.2 fun h => hne (hnil h)
    refine ⟨_, Option.bind_eq_some_iff.2 ⟨_, hfill, rfl⟩, ?_, by dsimp only; omega⟩
    dsimp only
    rw [err_of_fill hr hclean hbuf hne hfill, ite_self]
  · rw [if_neg hleft]
    exact ⟨_, rfl, rfl, by dsimp only; omega⟩

/-- On a clean parent, a read of no more than there is comes back without an error, with a byte
    more than what is in the buffer, and with no more than a capacity missing. -/
theorem read_ready (hr : r.Ready) (hclean : PromptReader.Clean r.impl) {data : Bytes}
    (hne : data ≠ []) (hlen : data.length ≤ (Reader.content r).length) :
    ∃ res data' r', r.read data = some (res, data', r') ∧ r'.Ready ∧
      PromptReader.Clean r'.impl ∧ res.err = none ∧
      min data.length (max r.buf.length (data.length - r.capacity) + 1) ≤ res.count := by
  -- It is enough that the read comes back with these bytes.
  suffices h : ∃ q, r.read data = some q ∧ q.1.err = none ∧
      min data.length (max r.buf.length (data.length - r.capacity) + 1) ≤ q.1.count by
    obtain ⟨⟨res, data', r'⟩, hread, herr, hcount⟩ := h
    obtain ⟨-, hcap, hfits⟩ := read_spec hread
    have hclean' : PromptReader.Clean r'.impl := read_preserves
      (fun hs hread => (PromptReader.err_of_clean hs hread).1) hread hclean
    exact ⟨res, data', r', hread, ⟨PromptReader.prompt_of_clean hclean', hcap ▸ hr.capacity_pos,
      hcap ▸ hfits hr.fits⟩, hclean', herr, hcount⟩
  rw [read, if_neg hne]
  by_cases hbuf : data.length ≤ r.buf.length
  · -- The buffer holds enough.
    rw [if_pos hbuf]
    exact ⟨_, rfl, rfl, min_le_left _ _⟩
  rw [if_neg hbuf]
  -- It does not: the buffer is emptied, and the rest comes from the parent.
  obtain ⟨s, hrun, hs, hleft⟩ := directTurn_run_fed hr.capacity_pos
    (fed_start hclean (Nat.not_le.1 hbuf) hlen)
    (Nat.lt_succ_of_le (PromptReader.length_content_le_fuel _))
  have hdata : s.data.length = data.length :=
    hs.length_data.trans (length_overwrite_buf (Nat.not_le.1 hbuf))
  have hbuf' : r.buf.length ≤ s.total := hs.le_total
  have henough := hs.enough
  simp only [hrun, Option.bind_eq_bind, Option.bind_some]
  obtain ⟨q, hrest, herr, hcount⟩ := readRest_ready (r := { r with impl := s.impl, buf := [] })
    ⟨PromptReader.prompt_of_clean hs.clean, hr.capacity_pos, Nat.zero_le _⟩ hs.clean rfl
    fun hlt : s.total < s.data.length => by
      rw [content_eq, List.nil_append, ← List.length_pos_iff]
      dsimp only
      omega
  exact ⟨q, hrest, herr, by omega⟩

end Prompt

/-! ## Runs -/

/-- A call of a buffered reader: `read` into a span, or `peek`. -/
inductive Call
  | read (data : Bytes)
  | peek

/-- What a call gives back: the result and the span after it, or the next byte
    and whether there is one. -/
inductive Answer
  | read (res : Result) (data : Bytes)
  | peek (next : Byte) (haveNext : Bool)
  deriving DecidableEq

/-- The bytes an answer hands to the caller. -/
def Answer.delivered : Answer → Bytes
  | .read res data => data.take res.count
  | .peek _ _ => []

section Runs

variable [Reader σ Byte ErrorCondition]

/-- One call. -/
def call (r : BufferedReader σ) : Call → Option (Answer × BufferedReader σ)
  | .read data => (r.read data).map fun (res, data, r) => (.read res data, r)
  | .peek => r.peek.map fun ((next, haveNext), r) => (.peek next haveNext, r)

/-- A sequence of calls, all of which return. -/
def runCalls (r : BufferedReader σ) : List Call → Option (List Answer × BufferedReader σ)
  | [] => some ([], r)
  | c :: calls => do
    let (answer, r) ← r.call c
    let (answers, r) ← r.runCalls calls
    some (answer :: answers, r)

/-- A call, answered as the undelivered bytes `u` demand: a read delivers as
    many bytes as it counts, at most what was asked for, and these are the next
    ones; a peek delivers nothing and shows the next byte, if it shows one. -/
def Call.Faithful (u u' : Bytes) : Call → Answer → Prop
  | .read data, .read res data' => res.count ≤ data.length ∧ data'.length = data.length ∧
      (data'.take res.count).length = res.count ∧ data'.take res.count ++ u' = u
  | .peek, .peek next haveNext => u' = u ∧ (haveNext = true → u.head? = some next)
  | _, _ => False

/-- A run answered as the undelivered bytes demand, from `u` to `u'`. -/
inductive FaithfulRun : Bytes → List Call → List Answer → Bytes → Prop
  | nil (u : Bytes) : FaithfulRun u [] [] u
  | cons {u v u' : Bytes} {c : Call} {a : Answer} {calls : List Call} {answers : List Answer} :
      c.Faithful u v a → FaithfulRun v calls answers u' →
      FaithfulRun u (c :: calls) (a :: answers) u'

variable [LawfulReader σ] {r r' : BufferedReader σ}

theorem call_faithful {c : Call} {a : Answer} (h : r.call c = some (a, r')) :
    c.Faithful (Reader.content r) (Reader.content r') a ∧
      a.delivered ++ Reader.content r' = Reader.content r ∧ r'.capacity = r.capacity ∧
      (r.buf.length ≤ r.capacity → r'.buf.length ≤ r.capacity) := by
  cases c with
  | read data =>
    obtain ⟨⟨res, data', r₁⟩, hread, h⟩ := Option.map_eq_some_iff.1 h
    cases h
    obtain ⟨hd, hcap, hfit⟩ := read_spec hread
    have hlen : (data'.take res.count).length = res.count :=
      List.length_take_of_le (hd.length_span ▸ hd.le_span)
    exact ⟨⟨hd.le_span, hd.length_span, hlen, hd.append_rest⟩, hd.append_rest, hcap, hfit⟩
  | peek =>
    obtain ⟨⟨⟨next, haveNext⟩, r₁⟩, hpeek, h⟩ := Option.map_eq_some_iff.1 h
    cases h
    obtain ⟨hc, hcap, hfit, hnext, -⟩ := peek_spec hpeek
    refine ⟨⟨hc, fun hn => ?_⟩, hc, hcap, hfit⟩
    obtain ⟨rest, hbuf⟩ := hnext hn
    rw [← hc, content_eq, hbuf]
    rfl

/-- A run delivers the stream: what was delivered, then what is undelivered. -/
theorem runCalls_conserves {calls : List Call} {answers : List Answer}
    (h : r.runCalls calls = some (answers, r')) :
    FaithfulRun (Reader.content r) calls answers (Reader.content r') ∧
      answers.flatMap Answer.delivered ++ Reader.content r' = Reader.content r ∧
      r'.capacity = r.capacity ∧ (r.buf.length ≤ r.capacity → r'.buf.length ≤ r.capacity) := by
  induction calls generalizing r answers with
  | nil =>
    cases h
    exact ⟨.nil _, rfl, rfl, id⟩
  | cons c calls ih =>
    obtain ⟨⟨a, r₁⟩, hcall, h⟩ := Option.bind_eq_some_iff.1 h
    obtain ⟨⟨as, r₂⟩, hrun, h⟩ := Option.bind_eq_some_iff.1 h
    cases h
    obtain ⟨hf, hc, hcap, hfit⟩ := call_faithful hcall
    obtain ⟨hfs, hcs, hcaps, hfits⟩ := ih hrun
    refine ⟨.cons hf hfs, ?_, hcaps.trans hcap, fun hr => ?_⟩
    · rw [List.flatMap_cons, List.append_assoc, hcs, hc]
    · exact hcap ▸ hfits (hcap ▸ hfit hr)

omit [LawfulReader σ] in
/-- A run preserves what the reads of the parent preserve. -/
theorem runCalls_preserves {P : σ → Prop}
    (hP : ∀ {s s' : σ} {d d' : Bytes} {res : Result}, P s → Reader.read s d = some (res, d', s') →
      P s') {calls : List Call} {answers : List Answer}
    (h : r.runCalls calls = some (answers, r')) (hr : P r.impl) : P r'.impl := by
  induction calls generalizing r answers with
  | nil =>
    cases h
    exact hr
  | cons c calls ih =>
    obtain ⟨⟨a, r₁⟩, hcall, h⟩ := Option.bind_eq_some_iff.1 h
    obtain ⟨⟨as, r₂⟩, hrun, h⟩ := Option.bind_eq_some_iff.1 h
    cases h
    refine ih hrun ?_
    cases c with
    | read data =>
      obtain ⟨⟨res, data', r₃⟩, hread, hq⟩ := Option.map_eq_some_iff.1 hcall
      cases hq
      exact read_preserves hP hread hr
    | peek =>
      obtain ⟨⟨b, r₃⟩, hpeek, hq⟩ := Option.map_eq_some_iff.1 hcall
      cases hq
      exact peek_preserves hP hpeek hr

end Runs

/-- In every run of reads and peeks that return, on every parent, what was
    delivered, the buffer, and what the parent still has make up the stream;
    every answer is faithful to it; and the buffer keeps within its capacity. A
    peek at the state reached shows the next undelivered byte, if any, as long
    as the reads of the parent return at least a byte, with or without errors. -/
theorem runCalls_faithful (s : Source) (capacity : ℕ) (hcap : 0 < capacity) (calls : List Call)
    (answers : List Answer) (r : BufferedReader Source)
    (h : (new s capacity).runCalls calls = some (answers, r)) :
    answers.flatMap Answer.delivered ++ r.buf ++ r.impl.pending = s.pending ∧
      FaithfulRun s.pending calls answers (r.buf ++ r.impl.pending) ∧
      r.buf.length ≤ capacity ∧
      (s.Prompt → ∃ next haveNext r', r.peek = some ((next, haveNext), r') ∧
        r'.buf ++ r'.impl.pending = r.buf ++ r.impl.pending ∧
        (r.buf ++ r.impl.pending).head? = if haveNext then some next else none) := by
  obtain ⟨hf, hc, hcap', hfit⟩ := runCalls_conserves h
  have hlen : r.buf.length ≤ capacity := hfit (Nat.zero_le _)
  refine ⟨by rw [List.append_assoc]; exact hc, hf, hlen, fun hs => ?_⟩
  have hprompt : r.impl.Prompt := runCalls_preserves (P := Source.Prompt) (fun hs hread => by
    cases hread
    exact fun ev hev => hs ev (List.mem_of_mem_tail hev)) h hs
  have hready : r.Ready := ⟨hprompt, by rw [hcap']; exact hcap, by rw [hcap']; exact hlen⟩
  obtain ⟨next, haveNext, r', hpeek, -, hcr, hnext⟩ := peek_ready hready
  refine ⟨next, haveNext, r', hpeek, hcr, ?_⟩
  change (Reader.content r).head? = _
  rcases hnext with ⟨rfl, rest, hbuf⟩ | ⟨rfl, hnil⟩
  · rw [← hcr, content_eq, hbuf]
    rfl
  · rw [hnil]
    rfl

/-- A capacity of 4, a parent returning 2 bytes, then 3 with an error, then all
    that is asked for: a read of 6, a peek, and a read of 2. -/
theorem runCalls_faithful_nine :
    let answers : List Answer :=
      [.read ⟨5, some .closed⟩ [1, 2, 3, 4, 5, 0], .peek 6 true, .read ⟨2, none⟩ [6, 7]]
    FaithfulRun [1, 2, 3, 4, 5, 6, 7, 8, 9] [.read [0, 0, 0, 0, 0, 0], .peek, .read [0, 0]]
      answers [8, 9] :=
  (runCalls_faithful ⟨[1, 2, 3, 4, 5, 6, 7, 8, 9], [⟨2, none⟩, ⟨3, some .closed⟩], none⟩ 4
    (by decide) _ _ ⟨⟨[], [], none⟩, [8, 9], 4, none⟩ (by decide)).2.1

end BufferedReader

end Cppnet.Io
