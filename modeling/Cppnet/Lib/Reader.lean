import Mathlib.Data.List.Basic
import Mathlib.Logic.Relation
import Mathlib.Tactic.Common

/-!
# Readers

A reader hands out the elements of a stream: `read` is given a span of memory,
overwrites a prefix of it with the next elements of the stream, and reports how
many there were, together with an error, if any. It may also never come back
(`none`).

* `Delivers c c' d d' n`: the contents of the stream go from `c` to `c'` and
  the span from `d` to `d'` by handing out the next `n` elements. Deliveries
  compose along a span that is filled piece by piece (`Delivers.sub`).
* `Reader`: the interface, with the contents left in the stream, and the number
  of reads after which a reader that hands out nothing does so for ever.
* `LawfulReader`: every read is a delivery. Readers stacked on lawful readers
  are shown lawful in turn.
* `PromptReader`: states from which a read always comes back, and hands out at
  least one element as long as there are some, with or without errors.
* `FillingReader`: states from which a read of no more than there is fills its span.
* `Steady P`: from the states `P`, a read of no more than there is hands out at least
  one element, without an error. Both of the above have such states.
* `ReadsTo s s'`: some reads lead from `s` to `s'`. They take contents from the front.
* `Ends e P`: from the states `P`, reads are filled as far as there are elements, and
  give the error `e` when there are none.
* `RunsDry err ok P`: from the states `P`, reads are filled as far as there are elements, and give
  the error `err`, if any, when there are none; they come back as long as the number of elements
  missing is `ok`.
-/

namespace Lib

variable {α : Type*}

/-! ## Spans -/

/-- The `n` elements of the span `d` from the offset `o` on (fewer at its end). -/
def subspan (d : List α) (o n : ℕ) : List α := (d.drop o).take n

/-- The span `d`, overwritten with `e` from the offset `o` on. -/
def overwrite (d : List α) (o : ℕ) (e : List α) : List α :=
  d.take o ++ e ++ d.drop (o + e.length)

/-- Writing `e` into the span `d` from the offset `o` on, all of it within the span. Writing
    nothing is fine anywhere. -/
def store (d : List α) (o : ℕ) (e : List α) : Option (List α) :=
  if e.length = 0 ∨ o + e.length ≤ d.length then some (overwrite d o e) else none

/-- The vector `d` with its size changed to `n`, new elements being `z`. -/
def resize (z : α) (d : List α) (n : ℕ) : List α := d.take n ++ List.replicate (n - d.length) z

theorem length_subspan {d : List α} {o n : ℕ} (h : o + n ≤ d.length) : (subspan d o n).length = n := by
  rw [subspan, List.length_take, List.length_drop]
  omega

theorem subspan_rest (d : List α) (o : ℕ) : subspan d o (d.length - o) = d.drop o := by
  rw [subspan, ← List.length_drop, List.take_length]

theorem resize_of_le {z : α} {d : List α} {n : ℕ} (h : n ≤ d.length) :
    resize z d n = d.take n := by
  rw [resize, Nat.sub_eq_zero_of_le h, List.replicate_zero, List.append_nil]

/-- Moving the elements from `n` on to the front, then dropping the rest. -/
theorem resize_overwrite_drop (z : α) (d : List α) (n : ℕ) :
    resize z (overwrite d 0 (d.drop n)) (d.length - n) = d.drop n := by
  rw [resize_of_le (by simp [overwrite])]
  simp [overwrite]

@[simp] theorem overwrite_zero (d e : List α) : overwrite d 0 e = e ++ d.drop e.length := by
  simp [overwrite]

/-- Growing a vector by a span copied behind its end. -/
theorem overwrite_resize_length (z : α) (d e : List α) :
    overwrite (resize z d (d.length + e.length)) d.length e = d ++ e := by
  have hr : resize z d (d.length + e.length) = d ++ List.replicate e.length z := by
    rw [resize, List.take_of_length_le (by omega), Nat.add_sub_cancel_left]
  rw [hr, overwrite, List.take_left, List.drop_eq_nil_of_le (by simp), List.append_nil]

/-- Giving a vector the size of a span copied over it. -/
theorem overwrite_resize_zero (z : α) (d e : List α) :
    overwrite (resize z d e.length) 0 e = e := by
  rw [overwrite_zero, List.drop_eq_nil_of_le (by simp [resize]; omega), List.append_nil]

/-- Writing over a piece as many elements as it has. -/
theorem length_overwrite_subspan {d e : List α} {o n : ℕ} (h : e.length = (subspan d o n).length) :
    (overwrite d o e).length = d.length := by
  simp only [subspan, List.length_take, List.length_drop] at h
  simp only [overwrite, List.length_append, List.length_take, List.length_drop]
  omega

/-- Writing over a part of a span. -/
theorem store_append (a b c : List α) {e : List α} (h : e.length = b.length) :
    store (a ++ (b ++ c)) a.length e = some (a ++ (e ++ c)) := by
  have hdrop : (a ++ (b ++ c)).drop (a.length + e.length) = c := by
    rw [List.drop_length_add_append, h, List.drop_left]
  rw [store, if_pos (.inr (by simp [h])), overwrite, List.take_left, hdrop, List.append_assoc]

/-- A span keeps its length, if there is room for what is written to it. -/
theorem store_spec (d : List α) (o : ℕ) (e : List α) :
    match store d o e with
    | some d' => (e.length = 0 ∨ o + e.length ≤ d.length) ∧ d'.length = d.length
    | none => ¬(e.length = 0 ∨ o + e.length ≤ d.length) := by
  rw [store]
  split
  · next heq =>
    split at heq
    · next hroom =>
      cases heq
      refine ⟨hroom, ?_⟩
      simp only [overwrite, List.length_append, List.length_take, List.length_drop]
      omega
    · cases heq
  · next heq =>
    split at heq
    · cases heq
    · next hroom => exact hroom

/-! ## Deliveries -/

/-- Handing out the next `n` elements of the contents `c` into the span `d`,
    leaving the contents `c'` and the span `d'`. -/
structure Delivers (c c' d d' : List α) (n : ℕ) : Prop where
  le_span : n ≤ d.length
  le_content : n ≤ c.length
  span : d' = c.take n ++ d.drop n
  rest : c' = c.drop n

namespace Delivers

variable {c c₁ c₂ d d₁ e : List α} {m n k : ℕ}

/-- Handing out nothing. -/
theorem refl (c d : List α) : Delivers c c d d 0 :=
  ⟨Nat.zero_le _, Nat.zero_le _, by simp, by simp⟩

/-- Handing out the front of a buffer that comes before the contents `c`. -/
theorem of_buffer {b : List α} (c : List α) (hn : n ≤ b.length) (hd : n ≤ d.length) :
    Delivers (b ++ c) (b.drop n ++ c) d (overwrite d 0 (b.take n)) n := by
  refine ⟨hd, by simp; omega, ?_, ?_⟩
  · rw [overwrite_zero, List.take_append_of_le_length hn, List.length_take_of_le hn]
  · rw [List.drop_append_of_le_length hn]

/-- The span keeps its length. -/
theorem length_span (h : Delivers c c₁ d d₁ n) : d₁.length = d.length := by
  have hd := h.le_span
  have hc := h.le_content
  rw [h.span]
  simp only [List.length_append, List.length_take, List.length_drop]
  omega

/-- What was handed out is found at the front of the span. -/
theorem take_span (h : Delivers c c₁ d d₁ n) : d₁.take n = c.take n := by
  have hc := h.le_content
  rw [h.span, List.take_left' (by simp [hc])]

/-- The rest of the span is untouched. -/
theorem drop_span (h : Delivers c c₁ d d₁ n) : d₁.drop n = d.drop n := by
  have hc := h.le_content
  rw [h.span, List.drop_left' (by simp [hc])]

/-- What was handed out, followed by what is left, are the contents. -/
theorem append_rest (h : Delivers c c₁ d d₁ n) : d₁.take n ++ c₁ = c := by
  rw [h.take_span, h.rest, List.take_append_drop]

theorem length_rest (h : Delivers c c₁ d d₁ n) : c₁.length = c.length - n := by
  rw [h.rest, List.length_drop]

/-- Nothing was handed out if and only if the contents are what they were. -/
theorem count_eq_zero_iff (h : Delivers c c₁ d d₁ n) : n = 0 ↔ c₁ = c := by
  constructor
  · rintro rfl
    exact h.rest
  · intro hc
    have hlen := h.length_rest
    have hle := h.le_content
    rw [hc] at hlen
    omega

/-- A delivery of `m` elements followed by one of `n` into the span behind
    them is a delivery of `m + n`. -/
theorem sub (h : Delivers c c₁ d d₁ m) (h' : Delivers c₁ c₂ (subspan d₁ m k) e n) :
    Delivers c c₂ d (overwrite d₁ m e) (m + n) := by
  have hlen := h'.length_span
  have hn := h'.le_span
  have hr := h'.le_content
  have hsub : subspan d₁ m k = (d.drop m).take k := by rw [subspan, h.drop_span]
  rw [hsub] at hlen hn
  simp only [List.length_take, List.length_drop] at hlen hn
  have hd := h.le_span
  have hc := h.le_content
  rw [h.length_rest] at hr
  refine ⟨by omega, by omega, ?_, by rw [h'.rest, h.rest, List.drop_drop]⟩
  -- Behind the two deliveries, what is left of the piece and what is behind
  -- the piece make up the rest of the span.
  have hback : ((d.drop m).take k).drop n ++ d₁.drop (m + e.length) = d.drop (m + n) := by
    rw [← List.drop_drop (l := d₁), h.drop_span, hlen, ← List.drop_drop (l := d)]
    by_cases hk : k ≤ d.length - m
    · rw [Nat.min_eq_left hk, ← List.drop_append_of_le_length (by simp; omega),
        List.take_append_drop]
    · rw [Nat.min_eq_right (by omega), List.take_of_length_le (by simp; omega),
        List.drop_eq_nil_of_le (by simp : (d.drop m).length ≤ d.length - m), List.append_nil]
  calc d₁.take m ++ e ++ d₁.drop (m + e.length)
      = c.take m ++ (c₁.take n ++ ((d.drop m).take k).drop n) ++ d₁.drop (m + e.length) := by
        rw [h.take_span, ← hsub, ← h'.span]
    _ = c.take m ++ c₁.take n ++ d.drop (m + n) := by
        rw [← List.append_assoc (c.take m), List.append_assoc, hback]
    _ = c.take (m + n) ++ d.drop (m + n) := by
        rw [h.rest, ← List.take_add]

/-- A delivery of elements of the front of the contents does not depend on what is behind. -/
theorem of_front {a b : List α} (h : Delivers (a ++ b) c₁ d d₁ n) (hn : n ≤ a.length)
    (b' : List α) : Delivers (a ++ b') (a.drop n ++ b') d d₁ n := by
  refine ⟨h.le_span, by simp; omega, ?_, ?_⟩
  · rw [h.span, List.take_append_of_le_length hn, List.take_append_of_le_length hn]
  · rw [List.drop_append_of_le_length hn]

end Delivers

/-! ## Readers -/

/-- What a call reports: the number of elements, and an error, if any. -/
structure Report (ε : Type*) where
  count : ℕ
  err : Option ε
  deriving DecidableEq, Repr

/-- A reader with the states `σ`, on a stream of elements `α`, with errors `ε`. -/
class Reader (σ : Type*) (α ε : outParam (Type*)) where
  /-- A read into a span: the report, the span and the state after it. -/
  read : σ → List α → Option (Report ε × List α × σ)
  /-- The elements still to be handed out. -/
  content : σ → List α
  /-- A number of reads without an error by which the stream ends or stalls. -/
  fuel : σ → ℕ

/-- The reads of a lawful reader are deliveries of its contents. -/
class LawfulReader (σ : Type*) {α ε : outParam (Type*)} [Reader σ α ε] : Prop where
  delivers : ∀ {s s' : σ} {d d' : List α} {r : Report ε}, Reader.read s d = some (r, d', s') →
    Delivers (Reader.content s) (Reader.content s') d d' r.count

section Reads

variable {σ ε : Type*} [Reader σ α ε]

/-- Reads into spans, one after the other: what was handed out, and the state
    after it, if all of them come back. -/
def reads (s : σ) : List (List α) → Option (List α × σ)
  | [] => some ([], s)
  | d :: ds => (Reader.read s d).bind fun (r, d', s) =>
      (reads s ds).map fun (out, s) => (d'.take r.count ++ out, s)

/-- What was handed out, followed by what is left, are the contents. -/
theorem reads_append_content [LawfulReader σ] {s s' : σ} {ds : List (List α)} {out : List α}
    (h : reads s ds = some (out, s')) : out ++ Reader.content s' = Reader.content s := by
  induction ds generalizing s out with
  | nil =>
    cases h
    rfl
  | cons d ds ih =>
    obtain ⟨⟨r, d', s₁⟩, hread, h⟩ := Option.bind_eq_some_iff.1 h
    obtain ⟨⟨out', s₂⟩, hreads, h⟩ := Option.map_eq_some_iff.1 h
    cases h
    rw [List.append_assoc, ih hreads, (LawfulReader.delivers hread).append_rest]

/-- Reads that hand out nothing, one by one. -/
theorem reads_cons_nil [LawfulReader σ] {s s' : σ} {d : List α} {ds : List (List α)}
    (h : reads s (d :: ds) = some ([], s')) :
    ∃ r d' s₁, Reader.read s d = some (r, d', s₁) ∧ r.count = 0 ∧ reads s₁ ds = some ([], s') := by
  obtain ⟨⟨r, d', s₁⟩, hread, h⟩ := Option.bind_eq_some_iff.1 h
  obtain ⟨⟨out, s₂⟩, hreads, h⟩ := Option.map_eq_some_iff.1 h
  simp only [Prod.mk.injEq, List.append_eq_nil_iff] at h
  obtain ⟨⟨htake, rfl⟩, rfl⟩ := h
  refine ⟨r, d', s₁, hread, ?_, hreads⟩
  have hd := LawfulReader.delivers hread
  have hle := hd.le_span
  have hlen := congrArg List.length htake
  rw [List.length_take, hd.length_span, List.length_nil] at hlen
  omega

end Reads

/-- Prompt states of a reader, from which every read comes back, with at least
    one element if there is one and the span is not empty; and clean ones, from
    which it does so without an error. -/
class PromptReader (σ : Type*) {α ε : outParam (Type*)} [Reader σ α ε] where
  Prompt : σ → Prop
  Clean : σ → Prop
  prompt_of_clean : ∀ {s : σ}, Clean s → Prompt s
  read_prompt : ∀ {s : σ} (d : List α), Prompt s → ∃ r d' s', Reader.read s d = some (r, d', s') ∧
    Prompt s' ∧ (d ≠ [] → Reader.content s ≠ [] → 0 < r.count)
  err_of_clean : ∀ {s s' : σ} {d d' : List α} {r : Report ε}, Clean s →
    Reader.read s d = some (r, d', s') → Clean s' ∧ (Reader.content s ≠ [] → r.err = none)
  length_content_le_fuel : ∀ s : σ, (Reader.content s).length ≤ Reader.fuel s

/-- States of a reader from which every read of no more than there is fills its span. -/
class FillingReader (σ : Type*) {α ε : outParam (Type*)} [Reader σ α ε] where
  Filling : σ → Prop
  read_filling : ∀ {s : σ} {d : List α}, Filling s → d ≠ [] → d.length ≤ (Reader.content s).length →
    ∃ d' s', Reader.read s d = some (⟨d.length, none⟩, d', s') ∧ Filling s'
  length_content_le_fuel : ∀ {s : σ}, Filling s → (Reader.content s).length ≤ Reader.fuel s

/-! ## Any reads -/

section ReadsTo

variable {σ ε : Type*} [Reader σ α ε] {s s' : σ}

/-- Some reads lead from `s` to `s'`. -/
def ReadsTo : σ → σ → Prop :=
  Relation.ReflTransGen fun s s' => ∃ d r d', Reader.read s d = some (r, d', s')

theorem ReadsTo.refl (s : σ) : ReadsTo s s := Relation.ReflTransGen.refl

theorem ReadsTo.trans {s'' : σ} (h : ReadsTo s s') (h' : ReadsTo s' s'') : ReadsTo s s'' :=
  Relation.ReflTransGen.trans h h'

theorem readsTo_of_read {d d' : List α} {r : Report ε} (h : Reader.read s d = some (r, d', s')) : ReadsTo s s' :=
  Relation.ReflTransGen.single ⟨d, r, d', h⟩

theorem ReadsTo.content_suffix [LawfulReader σ] (h : ReadsTo s s') : Reader.content s' <:+ Reader.content s := by
  induction h with
  | refl => exact List.suffix_rfl
  | tail _ hread ih =>
    obtain ⟨d, r, d', hread⟩ := hread
    rw [(LawfulReader.delivers hread).rest]
    exact (List.drop_suffix _ _).trans ih

end ReadsTo

section Steady

variable {σ ε : Type*} [Reader σ α ε] {P : σ → Prop} {s : σ}

/-- From the states `P`, every read of no more than there is comes back without an error, with an
    element at least, and in such a state. -/
structure Steady (P : σ → Prop) : Prop where
  read : ∀ {s : σ} {d : List α}, P s → d ≠ [] → d.length ≤ (Reader.content s).length →
    ∃ n d' s', Reader.read s d = some (⟨n, none⟩, d', s') ∧ P s' ∧ 0 < n
  fuel : ∀ {s : σ}, P s → (Reader.content s).length ≤ Reader.fuel s

/-- A read of one element. -/
theorem Steady.read_one [LawfulReader σ] (h : Steady P) (hs : P s) {a : α} {rest : List α}
    (hc : Reader.content s = a :: rest) (x : α) :
    ∃ s', Reader.read s [x] = some (⟨1, none⟩, [a], s') ∧ P s' ∧ Reader.content s' = rest := by
  obtain ⟨n, d', s', hread, hs', hpos⟩ := h.read (d := [x]) hs (List.cons_ne_nil _ _) (by simp [hc])
  obtain ⟨hle, -, hspan, hrest⟩ := LawfulReader.delivers hread
  have hn : n = 1 := Nat.le_antisymm hle hpos
  subst hn
  rw [hc] at hspan hrest
  exact ⟨s', by rw [hread, hspan]; rfl, hs', hrest⟩

/-- Filling states are steady. -/
theorem steady_filling [FillingReader σ] : Steady (FillingReader.Filling (σ := σ)) where
  read {s d} hs hd hlen := by
    obtain ⟨d', s', hread, hs'⟩ := FillingReader.read_filling hs hd hlen
    exact ⟨_, d', s', hread, hs', List.length_pos_iff.2 hd⟩
  fuel := FillingReader.length_content_le_fuel

/-- From the states `P`, every read comes back in such a state: with all that is asked for, or all that is left, as
    long as there is something left, and then with the error `e`. -/
structure Ends (e : ε) (P : σ → Prop) : Prop where
  read : ∀ {s : σ} (d : List α), P s → Reader.content s ≠ [] →
    ∃ d' s', Reader.read s d = some (⟨min d.length (Reader.content s).length, none⟩, d', s') ∧ P s'
  read_end : ∀ {s : σ} (d : List α), P s → Reader.content s = [] →
    ∃ d' s', Reader.read s d = some (⟨0, some e⟩, d', s') ∧ P s'
  fuel : ∀ {s : σ}, P s → (Reader.content s).length ≤ Reader.fuel s

theorem Ends.steady {e : ε} (h : Ends e P) : Steady P where
  read {s d} hs hd hlen := by
    have hpos := List.length_pos_iff.2 hd
    have hpos' : 0 < (Reader.content s).length := Nat.lt_of_lt_of_le hpos hlen
    obtain ⟨d', s', hread, hs'⟩ := h.read d hs (List.ne_nil_of_length_pos hpos')
    exact ⟨_, d', s', hread, hs', Nat.lt_min.2 ⟨hpos, hpos'⟩⟩
  fuel := h.fuel

/-- From the states `P`, a read for `k` elements more than there are comes back if and only if `ok k`: in such a
    state, with all that is asked for, or all that is left, and with the error `err`, if any, when there is nothing
    left. -/
structure RunsDry (err : Option ε) (ok : ℕ → Prop) (P : σ → Prop) : Prop where
  read : ∀ {s : σ} {d : List α}, P s → ok (d.length - (Reader.content s).length) →
    ∃ d' s', Reader.read s d = some (⟨min d.length (Reader.content s).length,
      if (Reader.content s).length = 0 then err else none⟩, d', s') ∧ P s'
  hangs : ∀ {s : σ} {d : List α}, P s → ¬ok (d.length - (Reader.content s).length) → Reader.read s d = none
  fuel : ∀ {s : σ}, P s → (Reader.content s).length ≤ Reader.fuel s

namespace RunsDry

variable {err : Option ε} {ok : ℕ → Prop}

theorem steady (h : RunsDry err ok P) (hok : ok 0) : Steady P where
  read {s d} hs hd hlen := by
    have hpos := List.length_pos_iff.2 hd
    obtain ⟨d', s', hread, hs'⟩ := h.read (d := d) hs (by rwa [Nat.sub_eq_zero_of_le hlen])
    rw [Nat.min_eq_left hlen, if_neg (Nat.ne_zero_of_lt (Nat.lt_of_lt_of_le hpos hlen))] at hread
    exact ⟨_, d', s', hread, hs', hpos⟩
  fuel := h.fuel

/-- Without an error at the end. -/
theorem read_none (h : RunsDry none ok P) {s : σ} {d : List α} (hs : P s)
    (hok : ok (d.length - (Reader.content s).length)) :
    ∃ d' s', Reader.read s d = some (⟨min d.length (Reader.content s).length, none⟩, d', s') ∧ P s' := by
  obtain ⟨d', s', hread, hs'⟩ := h.read hs hok
  rw [ite_self] at hread
  exact ⟨d', s', hread, hs'⟩

/-- At the end. -/
theorem read_end (h : RunsDry err ok P) {s : σ} (hs : P s) (hc : Reader.content s = []) {d : List α}
    (hok : ok d.length) :
    ∃ d' s', Reader.read s d = some (⟨0, err⟩, d', s') ∧ P s' := by
  obtain ⟨d', s', hread, hs'⟩ := h.read (d := d) hs (by rwa [hc, List.length_nil, Nat.sub_zero])
  rw [hc, List.length_nil, Nat.min_zero, if_pos rfl] at hread
  exact ⟨d', s', hread, hs'⟩

end RunsDry

theorem Ends.runsDry {e : ε} (h : Ends e P) : RunsDry (some e) (fun _ => True) P where
  read {s d} hs _ := by
    by_cases hc : Reader.content s = []
    · obtain ⟨d', s', hread, hs'⟩ := h.read_end d hs hc
      refine ⟨d', s', ?_, hs'⟩
      rw [hread, hc, List.length_nil, Nat.min_zero, if_pos rfl]
    · obtain ⟨d', s', hread, hs'⟩ := h.read d hs hc
      refine ⟨d', s', ?_, hs'⟩
      rw [hread, if_neg (mt List.length_eq_zero_iff.1 hc)]
  hangs _ h := absurd trivial h
  fuel := h.fuel

end Steady

end Lib
