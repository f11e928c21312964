import Cppnet.Io.BufferedReader

/-!
# `string_reader`

`io/string_reader.hpp`: a reader of the bytes of a string. It fills every read as far as there are bytes, and at its
end counts none, without an error (`runsDry`).

A `buffered_reader` on such a parent reads on, past its buffer, as long as more than its capacity is missing. At the
end of the string this does not get any less: a read comes back if and only if it is for at most a capacity more than
what is left (`BufferedReader.runsDry`).
-/

namespace Cppnet.Io

open Lib

/-- `string_reader`: the bytes of the string, and how many of them have been read. -/
structure StringReader where
  view : Bytes
  idx : ℕ
  idx_le : idx ≤ view.length
  deriving DecidableEq, Repr

namespace StringReader

/-- The constructor. -/
def new (view : Bytes) : StringReader := ⟨view, 0, Nat.zero_le _⟩

/-- `read`, into the span `data`. -/
def read (r : StringReader) (data : Bytes) : Result × Bytes × StringReader :=
  if r.idx = r.view.length then (⟨0, none⟩, data, r)
  else
    let amount := min (r.view.length - r.idx) data.length
    (⟨amount, none⟩, overwrite data 0 (subspan r.view r.idx amount),
      ⟨r.view, r.idx + amount, Nat.add_le_of_le_sub' r.idx_le (min_le_left _ _)⟩)

instance : Reader StringReader Byte ErrorCondition where
  read r data := some (r.read data)
  content r := r.view.drop r.idx
  fuel r := r.view.length - r.idx

@[simp] theorem reader_read (r : StringReader) (data : Bytes) : Reader.read r data = some (r.read data) := rfl

theorem content_eq (r : StringReader) : Reader.content r = r.view.drop r.idx := rfl

@[simp] theorem content_new (view : Bytes) : Reader.content (new view) = view := rfl

/-- A read counts what is asked for, or what is left. -/
theorem read_result (r : StringReader) (data : Bytes) :
    (r.read data).1 = ⟨min data.length (Reader.content r).length, none⟩ := by
  rw [read, content_eq, List.length_drop]
  split_ifs with hend
  · rw [hend, Nat.sub_self, Nat.min_zero]
  · dsimp only
    rw [Nat.min_comm]

instance : LawfulReader StringReader where
  delivers {s s' d d' r} h := by
    rw [reader_read, Option.some.injEq, read] at h
    split_ifs at h
    · cases h
      exact .refl _ _
    · cases h
      have hbuffer := Delivers.of_buffer (b := s.view.drop s.idx) (d := d) []
        (min_le_left (s.view.length - s.idx) d.length |>.trans_eq List.length_drop.symm) (min_le_right _ _)
      rwa [List.append_nil, List.append_nil, List.drop_drop] at hbuffer

/-- Every read of a string comes back. -/
theorem runsDry : RunsDry none (fun _ => True) fun _ : StringReader => True where
  read {s d} _ _ := by
    rcases hread : s.read d with ⟨res, d', s'⟩
    have hres := s.read_result d
    rw [hread] at hres
    exact ⟨d', s', by rw [reader_read, hread, ite_self, ← hres], trivial⟩
  hangs _ h := absurd trivial h
  fuel {s} _ := by
    rw [content_eq, List.length_drop]
    exact le_rfl

end StringReader

/-! ## Buffered readers -/

namespace BufferedReader

section Dry

variable {σ : Type*} [Reader σ Byte ErrorCondition] [LawfulReader σ] {P : σ → Prop} {r : BufferedReader σ}

/-- A buffered reader of the given capacity on a parent in the states `P`. -/
structure Over (P : σ → Prop) (capacity : ℕ) (r : BufferedReader σ) : Prop where
  impl : P r.impl
  capacity_eq : r.capacity = capacity
  fits : r.buf.length ≤ capacity

/-- A state of the loop that bypasses the buffer, in a span of `n` bytes, with `c` bytes read or still to come. -/
structure Direct.Dry (P : σ → Prop) (n c : ℕ) (s : Direct σ) : Prop where
  impl : P s.impl
  length_data : s.data.length = n
  total_le : s.total ≤ n
  total : s.total + (Reader.content s.impl).length = c

/-- One more read of the parent: of a whole capacity, or of what is left. -/
theorem directTurn_dry (h : RunsDry none (fun _ => True) P) {n c capacity : ℕ} {s : Direct σ} (hs : s.Dry P n c)
    (hmore : n - s.total > capacity) :
    ∃ s', directTurn capacity s = some (.next s') ∧ s'.Dry P n c ∧
      (0 < capacity → s.total < c → (Reader.content s'.impl).length < (Reader.content s.impl).length) := by
  have hlen := hs.length_data
  have htotal := hs.total
  have hspan : (subspan s.data s.total capacity).length = capacity := length_subspan (by omega)
  obtain ⟨d, impl, hread, himpl⟩ := h.read_none (d := subspan s.data s.total capacity) hs.impl trivial
  have hd := LawfulReader.delivers hread
  have hrest := hd.length_rest
  rw [hspan] at hread hrest
  refine ⟨⟨impl, s.total + min capacity (Reader.content s.impl).length, overwrite s.data s.total d⟩, ?_,
    ⟨himpl, ?_, ?_, ?_⟩, ?_⟩
  · rw [directTurn, if_pos (hlen.symm ▸ hmore), hread]
    rfl
  · exact (length_overwrite_subspan hd.length_span).trans hlen
  · dsimp only
    omega
  · dsimp only at hrest ⊢
    omega
  · intro hcap hlt
    dsimp only at hrest ⊢
    omega

/-- The loop that bypasses the buffer comes to its end, unless more than a capacity is missing at the end of the
    stream. -/
theorem directTurn_run_dry (h : RunsDry none (fun _ => True) P) {n c capacity fuel : ℕ} {s : Direct σ}
    (hs : s.Dry P n c) (hcap : 0 < capacity) (hn : n ≤ c + capacity)
    (hfuel : (Reader.content s.impl).length < fuel) :
    ∃ s', Loop.run (directTurn capacity) fuel s = some (none, s') ∧ s'.Dry P n c ∧ n - s'.total ≤ capacity := by
  obtain ⟨⟨early, s'⟩, hrun, hearly, hs'⟩ := Loop.run_total (fun s' : Direct σ => s'.Dry P n c)
    (fun q : Option Result × Direct σ => q.1 = none ∧ q.2.Dry P n c ∧ n - q.2.total ≤ capacity)
    (fun s' => (Reader.content s'.impl).length) (fun s' hs' => by
      by_cases hmore : n - s'.total > capacity
      · obtain ⟨s'', hturn, hs'', hlt⟩ := directTurn_dry h hs' hmore
        exact .inl ⟨s'', hturn, hs'', hlt hcap (by omega)⟩
      · have hturn : directTurn capacity s' = some (.done (none, s')) := by
          rw [directTurn, if_neg (by rwa [hs'.length_data])]
        exact .inr ⟨_, hturn, rfl, hs', Nat.not_lt.1 hmore⟩) hs hfuel
  exact ⟨s', hearly ▸ hrun, hs'⟩

/-- Else it never does. -/
theorem not_returns_directTurn (h : RunsDry none (fun _ => True) P) {n c capacity : ℕ} {s : Direct σ} (hs : s.Dry P n c)
    (hn : c + capacity < n) (q : Option Result × Direct σ) : ¬Loop.Returns (directTurn capacity) s q := by
  intro hret
  have hmore : ∀ s' : Direct σ, s'.Dry P n c → n - s'.total > capacity := by
    intro s' hs'
    have htotal := hs'.total
    omega
  refine hret.invariant (fun s' => s'.Dry P n c) (fun _ => False) ?_ ?_ hs
  · intro s₁ s₂ hs₁ hturn
    obtain ⟨s', hturn', hs', -⟩ := directTurn_dry h hs₁ (hmore s₁ hs₁)
    cases hturn.symm.trans hturn'
    exact hs'
  · intro s₁ q hs₁ hturn
    obtain ⟨s', hturn', -⟩ := directTurn_dry h hs₁ (hmore s₁ hs₁)
    cases hturn.symm.trans hturn'

omit [LawfulReader σ] in
/-- The state the loop starts from, behind what was in the buffer. -/
theorem dry_start {capacity : ℕ} (hr : r.Over P capacity) {data : Bytes} (hbuf : r.buf.length < data.length) :
    Direct.Dry P data.length (Reader.content r).length ⟨r.impl, r.buf.length, overwrite data 0 r.buf⟩ :=
  ⟨hr.impl, length_overwrite_buf hbuf, hbuf.le, by rw [content_eq, List.length_append]⟩

/-- The end of a read: one refill of the buffer is all there is, or all that is missing. -/
theorem readRest_dry (h : RunsDry none (fun _ => True) P) {capacity total : ℕ} (data : Bytes) (hcap : 0 < capacity)
    (hr : r.Over P capacity) (hbuf : r.buf = []) (hleft : data.length - total ≤ capacity)
    (htotal : total ≤ data.length) :
    ∃ q, r.readRest total data = some q ∧
      q.1 = ⟨min data.length (total + (Reader.content r.impl).length), none⟩ := by
  rw [readRest]
  dsimp only
  by_cases hmore : data.length - total > 0
  · have hlt : r.buf.length < r.capacity := by rw [hbuf, hr.capacity_eq]; exact hcap
    obtain ⟨d, impl, hread, -⟩ := h.read_none (d := List.replicate (r.capacity - r.buf.length) 0) hr.impl trivial
    have hspan := (LawfulReader.delivers hread).length_span
    have hfill := fill_eq hlt
    rw [hread, Option.map_some] at hfill
    rw [if_pos hmore, hfill, Option.bind_eq_bind, Option.bind_some]
    refine ⟨_, rfl, ?_⟩
    simp only [hbuf, hr.capacity_eq, List.nil_append, List.length_take, List.length_nil, Nat.sub_zero,
      List.length_replicate] at hspan ⊢
    rw [ite_self, hspan]
    congr 1
    omega
  · rw [if_neg hmore]
    refine ⟨_, rfl, ?_⟩
    dsimp only
    congr 1
    omega

/-- A read of a buffered reader on a parent whose reads all come back is one, or goes on for ever, if it is for more
    than a capacity more than there is. -/
theorem runsDry (h : RunsDry none (fun _ => True) P) {capacity : ℕ} (hcap : 0 < capacity) :
    RunsDry none (· ≤ capacity) (Over P capacity) where
  read {r d} hr hok := by
    -- It is enough that the read comes back with these bytes.
    suffices hq : ∃ q, r.read d = some q ∧ q.1 = ⟨min d.length (Reader.content r).length, none⟩ by
      obtain ⟨⟨res, d', r'⟩, hread, rfl⟩ := hq
      rw [ite_self]
      obtain ⟨-, hcap', hfits⟩ := read_spec hread
      have himpl : P r'.impl := read_preserves (fun {s _ d _ _} hs hread => by
        obtain ⟨_, _, hread', hs'⟩ := h.read_none (d := d) hs trivial
        cases hread.symm.trans hread'
        exact hs') hread hr.impl
      rw [hr.capacity_eq] at hcap' hfits
      exact ⟨d', r', hread, himpl, hcap', hfits hr.fits⟩
    rw [read]
    by_cases hnil : d = []
    · rw [if_pos hnil]
      exact ⟨_, rfl, by rw [hnil, List.length_nil, Nat.zero_min]⟩
    rw [if_neg hnil]
    by_cases hbuf : d.length ≤ r.buf.length
    · rw [if_pos hbuf]
      refine ⟨_, rfl, ?_⟩
      rw [Nat.min_eq_left (hbuf.trans (by rw [content_eq, List.length_append]; exact Nat.le_add_right _ _))]
    rw [if_neg hbuf]
    obtain ⟨s, hrun, hs, hleft⟩ := directTurn_run_dry h (dry_start hr (Nat.not_le.1 hbuf)) hcap (by omega)
      (Nat.lt_succ_of_le (h.fuel hr.impl))
    obtain ⟨q, hrest, hq⟩ := readRest_dry (r := { r with impl := s.impl, buf := [] }) h s.data hcap
      ⟨hs.impl, hr.capacity_eq, Nat.zero_le _⟩ rfl (by rwa [hs.length_data]) (by rw [hs.length_data]; exact hs.total_le)
    refine ⟨q, Option.bind_eq_some_iff.2 ⟨(none, s), ?_, hrest⟩, ?_⟩
    · rw [hr.capacity_eq]
      exact hrun
    · rw [hq, hs.length_data, hs.total]
  hangs {r d} hr hok := by
    have hlen : r.buf.length ≤ (Reader.content r).length := by
      rw [content_eq, List.length_append]
      exact Nat.le_add_right _ _
    have hbuf : r.buf.length < d.length := by omega
    have hnil : d ≠ [] := List.ne_nil_of_length_pos (Nat.zero_lt_of_lt hbuf)
    change r.read d = none
    rw [read, if_neg hnil, if_neg (Nat.not_le.2 hbuf), hr.capacity_eq, Option.bind_eq_bind,
      Option.bind_eq_none_iff]
    intro q hrun
    exact absurd (Loop.returns_of_run hrun) (not_returns_directTurn h (dry_start hr hbuf) (by omega) q)
  fuel {r} hr := by
    rw [content_eq, List.length_append]
    exact Nat.add_le_add_left (h.fuel hr.impl) _

end Dry

/-- After any calls, a read from a string comes back, with what is asked for or with what is left, if and only if it
    is for at most a capacity more than what is left. Else the loop that bypasses the buffer never ends. -/
theorem read_string_iff (view : Bytes) (capacity : ℕ) (hcap : 0 < capacity) (calls : List Call) (answers : List Answer)
    (r : BufferedReader StringReader) (h : (new (StringReader.new view) capacity).runCalls calls = some (answers, r))
    (data : Bytes) :
    answers.flatMap Answer.delivered ++ Reader.content r = view ∧
      ((∃ data' r', r.read data = some (⟨min data.length (Reader.content r).length, none⟩, data', r')) ↔
        data.length ≤ (Reader.content r).length + capacity) ∧
      ((Reader.content r).length + capacity < data.length →
        ∀ q, ¬Loop.Returns (directTurn r.capacity) ⟨r.impl, r.buf.length, overwrite data 0 r.buf⟩ q) := by
  obtain ⟨-, hc, hcapacity, hfits⟩ := runCalls_conserves h
  change r.capacity = capacity at hcapacity
  have hr : r.Over (fun _ => True) capacity := ⟨trivial, hcapacity, hfits (Nat.zero_le _)⟩
  have hdry := runsDry StringReader.runsDry hcap
  refine ⟨hc, ⟨?_, fun hle => ?_⟩, fun hlt q => ?_⟩
  · rintro ⟨data', r', hread⟩
    by_contra hlt
    have hnone : r.read data = none := hdry.hangs hr (by omega)
    rw [hnone] at hread
    cases hread
  · obtain ⟨data', r', hread, -⟩ := hdry.read_none (d := data) hr (by omega)
    exact ⟨data', r', hread⟩
  · have hbuf : r.buf.length < data.length := by
      rw [content_eq, List.length_append] at hlt
      omega
    rw [hcapacity]
    exact not_returns_directTurn StringReader.runsDry (dry_start hr hbuf) hlt q

/-- A capacity of 4: behind 2 of 6 bytes, a read of 8. -/
theorem read_string_iff_six :
    ∃ data' r', read (σ := StringReader) ⟨⟨[1, 2, 3, 4, 5, 6], 4, by decide⟩, [3, 4], 4, none⟩
      [0, 0, 0, 0, 0, 0, 0, 0] = some (⟨4, none⟩, data', r') :=
  (read_string_iff [1, 2, 3, 4, 5, 6] 4 (by decide) [.read [0, 0]] [.read ⟨2, none⟩ [1, 2]]
    ⟨⟨[1, 2, 3, 4, 5, 6], 4, by decide⟩, [3, 4], 4, none⟩ (by decide) [0, 0, 0, 0, 0, 0, 0, 0]).2.1.2 (by decide)

/-- A read of two bytes from an empty string, with a capacity of one. -/
theorem read_string_hangs :
    ¬∀ (view : Bytes) (capacity : ℕ), 0 < capacity → ∀ (calls : List Call) (answers : List Answer)
      (r : BufferedReader StringReader), (new (StringReader.new view) capacity).runCalls calls = some (answers, r) →
      ∀ data : Bytes, ∃ data' r', r.read data =
        some (⟨min data.length (Reader.content r).length, none⟩, data', r') := by
  intro h
  obtain ⟨data', r', hread⟩ := h [] 1 (by decide) [] [] (new (StringReader.new []) 1) rfl [0, 0]
  have hnone : (new (StringReader.new []) 1).read [0, 0] = none := by decide
  rw [hnone] at hread
  cases hread

end BufferedReader

end Cppnet.Io
