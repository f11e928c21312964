import Cppnet.Io.Readline

/-!
# Reading ahead

How much of its source a buffered reader has in its buffer when the bytes `bs` have been taken from
it. It reads from the source only when the buffer is empty and one more byte is to be taken, and
then as much as the capacity: the source is always one that is left after a number of such reads
(`Source.drain`), and no more of them than it takes to get to the end of `bs` (`Takes.drains`). So
nothing is read ahead if a read ends there (`Takes.buf_eq_nil`).
-/

namespace Cppnet.Io

open Lib

namespace Source

/-- The source after a read of up to `n` bytes. -/
def drain (n : ℕ) (s : Source) : Source := (s.read (List.replicate n 0)).2.2

variable {n : ℕ}

theorem drain_pending (s : Source) : (s.drain n).pending = s.pending.drop (s.nextCount n) := by
  rw [drain, read, List.length_replicate]

theorem drain_pending_suffix (s : Source) : (s.drain n).pending <:+ s.pending := by
  rw [drain_pending]
  exact List.drop_suffix _ _

theorem drains_pending_suffix (s : Source) (k : ℕ) : ((drain n)^[k] s).pending <:+ s.pending := by
  induction k generalizing s with
  | zero => exact List.suffix_rfl
  | succ k ih => exact (ih (s.drain n)).trans s.drain_pending_suffix

/-- The later, the less is left. -/
theorem drains_pending_suffix_of_le (s : Source) {j k : ℕ} (h : j ≤ k) :
    ((drain n)^[k] s).pending <:+ ((drain n)^[j] s).pending := by
  obtain ⟨m, rfl⟩ := Nat.exists_eq_add_of_le' h
  rw [Function.iterate_add_apply]
  exact drains_pending_suffix _ m

/-- The source after any read of `n` bytes. -/
theorem eq_drain_of_read {s s' : Source} {data data' : Bytes} {res : Result}
    (h : Reader.read s data = some (res, data', s')) (hn : data.length = n) : s' = s.drain n := by
  rw [reader_read, Option.some.injEq, read, hn] at h
  cases h
  rw [drain, read, List.length_replicate]

/-- The source `s` is left of `s₀` after reads of `n` bytes, all of them made when more than `m` bytes
    were left. -/
def DrainedTo (n m : ℕ) (s₀ s : Source) : Prop :=
  ∃ j, s = (drain n)^[j] s₀ ∧ ∀ i < j, m < ((drain n)^[i] s₀).pending.length

theorem DrainedTo.mono {m m' : ℕ} {s₀ s : Source} (h : DrainedTo n m s₀ s) (hm : m' ≤ m) :
    DrainedTo n m' s₀ s := by
  obtain ⟨j, hj, hlt⟩ := h
  exact ⟨j, hj, fun i hi => hm.trans_lt (hlt i hi)⟩

/-- One more read. -/
theorem DrainedTo.drain {m : ℕ} {s₀ s : Source} (h : DrainedTo n s.pending.length s₀ s)
    (hm : m < s.pending.length) : DrainedTo n m s₀ (s.drain n) := by
  obtain ⟨j, hj, hlt⟩ := h
  refine ⟨j + 1, by rw [Function.iterate_succ_apply', ← hj], fun i hi => ?_⟩
  rcases Nat.lt_succ_iff_lt_or_eq.1 hi with hi | rfl
  · exact hm.trans (hlt i hi)
  · rwa [← hj]

end Source

variable {r r' : BufferedReader Source} {bs : Bytes}

/-- A refill of an empty buffer is a read of the capacity. -/
theorem BufferedReader.impl_fill_of_buf_eq_nil (hcap : 0 < r.capacity) (hbuf : r.buf = [])
    (h : r.fill = some r') : r'.impl = r.impl.drain r.capacity := by
  rw [fill_eq (by rw [hbuf]; exact hcap), hbuf, Source.reader_read, Option.map_some] at h
  cases h
  rfl

namespace BufferedReader

/-- The reader has read from the source `s₀` in reads of its capacity, and no more of them than it
    took to hand out what it has. -/
def Behind (s₀ : Source) (r : BufferedReader Source) : Prop :=
  Source.DrainedTo r.capacity (Reader.content r).length s₀ r.impl

theorem behind_new (s₀ : Source) (capacity : ℕ) : (new s₀ capacity).Behind s₀ :=
  ⟨0, rfl, fun _ hi => absurd hi (Nat.not_lt_zero _)⟩

/-- The loop that bypasses the buffer makes reads of the capacity, and hands out all of each. -/
theorem directTurn_drainedTo {s₀ : Source} {capacity : ℕ} {s s' : Direct Source}
    {early : Option Result} (hcap : 0 < capacity) (hs : s.Fed s)
    (hd : Source.DrainedTo capacity s.impl.pending.length s₀ s.impl)
    (h : Loop.Returns (directTurn capacity) s (early, s')) :
    early = none ∧ s'.Fed s ∧ Source.DrainedTo capacity s'.impl.pending.length s₀ s'.impl := by
  refine h.invariant
    (fun s' => s'.Fed s ∧ Source.DrainedTo capacity s'.impl.pending.length s₀ s'.impl)
    (fun q => q.1 = none ∧ q.2.Fed s ∧ Source.DrainedTo capacity q.2.impl.pending.length s₀ q.2.impl)
    ?_ ?_ ⟨hs, hd⟩
  · rintro t t' ⟨ht, hd⟩ hb
    by_cases hmore : t.data.length - t.total > capacity
    · obtain ⟨t₁, hturn, ht₁, hlt⟩ := directTurn_fed hcap ht hmore
      cases hb.symm.trans hturn
      have hspan : (subspan t.data t.total capacity).length = capacity := length_subspan (by omega)
      obtain ⟨res, data, impl, hread, -, hnext⟩ | ⟨_, _, _, _, hnext⟩ | hnext :=
        directTurn_cases hb <;> cases hnext
      -- The read is one of the capacity, and all of it is handed out.
      obtain rfl := Source.eq_drain_of_read hread hspan
      exact ⟨ht₁, hd.drain hlt⟩
    · rw [directTurn, if_neg hmore] at hb
      cases hb
  · rintro t q ⟨ht, hd⟩ hb
    by_cases hmore : t.data.length - t.total > capacity
    · obtain ⟨t₁, hturn, -⟩ := directTurn_fed hcap ht hmore
      cases hb.symm.trans hturn
    · rw [directTurn, if_neg hmore] at hb
      cases hb
      exact ⟨rfl, ht, hd⟩

/-- A read hands out something of the last read of the source it makes. -/
theorem Behind.read {s₀ : Source} (hb : r.Behind s₀) (hr : r.Ready)
    (hclean : PromptReader.Clean r.impl) {data data' : Bytes} {res : Result} (hne : data ≠ [])
    (hlen : data.length ≤ (Reader.content r).length) (h : r.read data = some (res, data', r')) :
    r'.Behind s₀ := by
  obtain ⟨hd, hcap, -⟩ := read_spec h
  have hrest := hd.length_rest
  have hpos := List.length_pos_iff.2 hne
  rw [Behind, hcap]
  rw [BufferedReader.read, if_neg hne] at h
  split at h
  · -- The buffer holds enough.
    cases h
    exact hb.mono (by omega)
  next hbuf =>
  obtain ⟨⟨early, s⟩, hrun, h⟩ := Option.bind_eq_some_iff.1 h
  have hstart := fed_start hclean (Nat.not_le.1 hbuf) hlen
  obtain ⟨rfl, hs, hs'⟩ := directTurn_drainedTo hr.capacity_pos hstart
    (hb.mono (by rw [content_eq, List.length_append]; exact Nat.le_add_left _ _))
    (Loop.returns_of_run hrun)
  have henough := hs.enough
  simp only [readRest] at h
  split at h
  · -- The rest comes from a last read of the source, which finds a byte.
    next hleft =>
    obtain ⟨r₁, hfill, h⟩ := Option.bind_eq_some_iff.1 h
    have hr₀ : Ready { r with impl := s.impl, buf := [] } :=
      ⟨PromptReader.prompt_of_clean hs.clean, hr.capacity_pos, Nat.zero_le _⟩
    obtain ⟨r₁', hfill', -, hc, hnil⟩ := fill_ready hr₀ rfl
    cases hfill.symm.trans hfill'
    rw [content_eq, content_eq, List.nil_append] at hc
    have hbuf₁ : r₁.buf ≠ [] := by
      intro hnil₁
      rw [hnil₁, List.nil_append] at hc
      have := congrArg List.length (hnil hnil₁)
      rw [content_eq, List.nil_append, List.length_nil] at this
      dsimp only at this
      omega
    have hpos₁ := List.length_pos_iff.2 hbuf₁
    have hlen₁ := congrArg List.length hc
    rw [List.length_append] at hlen₁
    have himpl : r₁.impl = s.impl.drain r.capacity :=
      impl_fill_of_buf_eq_nil (r := { r with impl := s.impl, buf := [] }) hr.capacity_pos rfl hfill
    cases h
    dsimp only
    rw [himpl]
    refine hs'.drain ?_
    rw [content_eq, List.length_append, resize_overwrite_drop, List.length_drop]
    rw [himpl] at hlen₁
    dsimp only [Source.reader_content] at hlen₁ ⊢
    omega
  · cases h
    exact hs'

/-- A buffered reader that hands out what is left of the clean source `s₀`. -/
structure Serving (s₀ : Source) (capacity : ℕ) (r : BufferedReader Source) : Prop where
  ready : r.Ready
  clean : PromptReader.Clean r.impl
  behind : r.Behind s₀
  capacity_eq : r.capacity = capacity

theorem serving_new {s₀ : Source} {capacity : ℕ} (hs : s₀.Clean) (hcap : 0 < capacity) :
    (new s₀ capacity).Serving s₀ capacity :=
  ⟨ready_source (fun ev hev => (hs ev hev).1) hcap, hs, behind_new s₀ capacity, rfl⟩

theorem steady_serving (s₀ : Source) (capacity : ℕ) : Steady (Serving s₀ capacity) where
  read {r data} hr hne hlen := by
    obtain ⟨⟨n, err⟩, data', r', hread, hready, hclean, herr, hcount⟩ :=
      read_ready hr.ready hr.clean hne hlen
    dsimp only at herr hcount
    subst herr
    have hpos := List.length_pos_iff.2 hne
    exact ⟨n, data', r', hread, ⟨hready, hclean, hr.behind.read hr.ready hr.clean hne hlen hread,
      (read_spec hread).2.1.trans hr.capacity_eq⟩, by omega⟩
  fuel _ := length_content_le_fuel _

/-- From an empty buffer, a read of no more than the capacity is one read of the source. -/
theorem count_of_buf_eq_nil (hr : r.Ready) (hbuf : r.buf = []) {data data' : Bytes} {res : Result}
    (hne : data ≠ []) (hle : data.length ≤ r.capacity) (h : r.read data = some (res, data', r')) :
    res.count = min data.length (r.impl.nextCount r.capacity) := by
  have hpos := List.length_pos_iff.2 hne
  have hturn : directTurn r.capacity ⟨r.impl, r.buf.length, overwrite data 0 r.buf⟩ =
      some (.done (none, ⟨r.impl, r.buf.length, overwrite data 0 r.buf⟩)) := by
    rw [directTurn, if_neg]
    rw [hbuf, overwrite_zero, List.nil_append]
    simpa using hle
  have hfill := fill_eq (r := { r with buf := [] }) hr.capacity_pos
  rw [read, if_neg hne, if_neg (by rw [hbuf, List.length_nil]; omega)] at h
  dsimp only at h hfill
  rw [Loop.run_succ_done hturn, Option.bind_eq_bind, Option.bind_some] at h
  rw [List.length_nil, Nat.sub_zero, Source.reader_read, Option.map_some, Source.read,
    List.length_replicate] at hfill
  have hn := r.impl.nextCount_le_pending r.capacity
  simp only [readRest, hbuf, overwrite_zero, List.nil_append, List.length_nil, List.drop_zero,
    Nat.sub_zero, gt_iff_lt, if_pos hpos, hfill, Option.bind_eq_bind, Option.bind_some] at h
  cases h
  simp only [List.length_take, List.length_append, List.length_drop, List.length_replicate]
  omega

end BufferedReader

/-- Taking a byte reads from the source only if the buffer is empty. -/
theorem impl_of_take {r₁ r₂ : BufferedReader Source} {b : Byte} (hcap : 0 < r.capacity)
    (hpeek : r.peek = some ((b, true), r₁)) (hread : r₁.read [0] = some (⟨1, none⟩, [b], r₂)) :
    r₂.impl = if r.buf = [] then r.impl.drain r.capacity else r.impl := by
  have h₂ : r₂.impl = r₁.impl := by
    obtain ⟨rest, hbuf⟩ := (BufferedReader.peek_spec hpeek).2.2.2.1 rfl
    rw [BufferedReader.read_one hbuf] at hread
    cases hread
    rfl
  rw [h₂]
  rw [BufferedReader.peek] at hpeek
  split at hpeek
  · next hbuf =>
    cases hpeek
    rw [if_neg (by rw [hbuf]; exact List.cons_ne_nil _ _)]
  · next hbuf =>
    obtain ⟨r', hfill, hpeek⟩ := Option.bind_eq_some_iff.1 hpeek
    rw [if_pos hbuf, ← BufferedReader.impl_fill_of_buf_eq_nil hcap hbuf hfill]
    split at hpeek <;> cases hpeek
    rfl

/-- The source is drained as far as it takes to get to the end of the bytes, and no further. -/
theorem Takes.drains (h : Takes r bs r') (hcap : 0 < r.capacity) :
    ∃ j, r'.impl = (Source.drain r.capacity)^[j] r.impl ∧
      ∀ k, bs.length + ((Source.drain r.capacity)^[k] r.impl).pending.length ≤
        (Reader.content r).length → j ≤ k := by
  induction h with
  | nil r => exact ⟨0, rfl, fun k _ => Nat.zero_le k⟩
  | @cons r r₁ r₂ r' b bs hpeek hread htakes ih =>
    have hcap₂ : r₂.capacity = r.capacity := by
      rw [(BufferedReader.read_spec hread).2.1, (BufferedReader.peek_spec hpeek).2.1]
    have hcontent : Reader.content r = b :: Reader.content r₂ :=
      (Takes.cons hpeek hread (.nil r₂)).content_eq
    have himpl := impl_of_take hcap hpeek hread
    obtain ⟨j, hj, hmin⟩ := ih (hcap₂ ▸ hcap)
    rw [hcap₂] at hj hmin
    by_cases hbuf : r.buf = []
    · -- The byte is the first of a new read, which every other way to get behind it makes as well.
      rw [if_pos hbuf] at himpl
      rw [himpl] at hj hmin
      refine ⟨j + 1, hj, fun k hk => ?_⟩
      rcases k with _ | k
      · -- There is a byte to take, and it is still in the source.
        rw [BufferedReader.content_eq, hbuf, List.nil_append, List.length_cons] at hk
        exact absurd hk (by simp)
      · refine Nat.succ_le_succ (hmin k ?_)
        rw [hcontent, List.length_cons, List.length_cons, Nat.add_right_comm] at hk
        exact Nat.le_of_succ_le_succ hk
    · -- The byte is in the buffer.
      rw [if_neg hbuf] at himpl
      rw [himpl] at hj hmin
      refine ⟨j, hj, fun k hk => hmin k ?_⟩
      rw [hcontent, List.length_cons, List.length_cons, Nat.add_right_comm] at hk
      exact Nat.le_of_succ_le_succ hk

theorem Takes.capacity_eq (h : Takes r bs r') : r'.capacity = r.capacity := by
  induction h with
  | nil r => rfl
  | cons hpeek hread _ ih =>
    rw [ih, (BufferedReader.read_spec hread).2.1, (BufferedReader.peek_spec hpeek).2.1]

/-- A buffered reader hands out what is left of its source, when bytes have been taken from it. -/
theorem Takes.serving {s : Source} {capacity : ℕ} (h : Takes (BufferedReader.new s capacity) bs r')
    (hs : s.Clean) (hr' : r'.Ready) : r'.Serving s capacity := by
  have hcap := h.capacity_eq
  obtain ⟨j, hj, hmin⟩ := h.drains (hcap ▸ hr'.capacity_pos)
  refine ⟨hr', h.preserves (P := Source.Clean)
    (fun hs hread => (PromptReader.err_of_clean hs hread).1) hs, ⟨j, hcap ▸ hj, fun i hi => ?_⟩, hcap⟩
  by_contra hle
  refine Nat.not_le.2 hi (hmin i ?_)
  rw [hcap] at hle
  rw [h.content_eq, List.length_append]
  exact Nat.add_le_add_left (Nat.not_lt.1 hle) _

/-- If a read of the source ends where the bytes do, nothing is read ahead. -/
theorem Takes.buf_eq_nil (h : Takes r bs r') (hcap : 0 < r.capacity) {k : ℕ}
    (hk : Reader.content r' = ((Source.drain r.capacity)^[k] r.impl).pending) : r'.buf = [] := by
  obtain ⟨j, hj, hmin⟩ := h.drains hcap
  have hle : j ≤ k := by
    refine hmin k ?_
    rw [h.content_eq, List.length_append, hk]
  -- No more reads than `k`, so no less is left in the source than is left to be read.
  have hlen := (Source.drains_pending_suffix_of_le (n := r.capacity) r.impl hle).length_le
  rw [← hj, ← hk, BufferedReader.content_eq, List.length_append, Source.reader_content] at hlen
  exact List.eq_nil_of_length_eq_zero (by omega)

end Cppnet.Io
