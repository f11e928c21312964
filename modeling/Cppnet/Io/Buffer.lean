import Cppnet.Io.Basic
import Cppnet.Lib.Machine

/-!
# `io::buffer`

`io/buffer.cpp`: a reader and a writer over one array. A read takes up where the last one left off
(`read_at`). A write makes room behind the content, but stores its data at `write_at`, which no
operation moves: at the front, over what was written before.

So a buffer is a queue for as long as one write has data. From the second one on it is not, unless
nothing but zeros is written: those of the array grown for a write stand for the bytes overwritten, if
the write is the longer one (`exec_fifo_iff`).
-/

namespace Cppnet.Io

open Lib

/-- `buffer`. -/
structure Buffer where
  content : Bytes
  writeAt : ℕ
  readAt : ℕ
  deriving DecidableEq, Repr

namespace Buffer

/-- A new one. -/
def new : Buffer := ⟨[], 0, 0⟩

/-- `write`. -/
def write (b : Buffer) (data : Bytes) : Result × Buffer :=
  let content :=
    if b.content.length - b.writeAt < data.length then
      resize 0 b.content (b.content.length - b.writeAt + data.length)
    else b.content
  (⟨data.length, none⟩, { b with content := overwrite content b.writeAt data })

/-- `read`. With nothing left, no byte is copied from behind the content. -/
def read (b : Buffer) (data : Bytes) : Result × Bytes × Buffer :=
  let readAmount := min data.length (b.content.length - b.readAt)
  let data := overwrite data 0 (subspan b.content b.readAt readAmount)
  let readAt := b.readAt + readAmount
  let err := if readAt ≥ b.content.length then some .closed else none
  (⟨readAmount, err⟩, data, { b with readAt })

/-- `to_string`. -/
def toString (b : Buffer) : Bytes := b.content

/-- A call of a buffer: `write`, or `read` into a span. -/
inductive Call
  | write (data : Bytes)
  | read (data : Bytes)

/-- A buffer in use, with all bytes written to it so far, and read from it. -/
structure Used where
  buffer : Buffer
  written : Bytes
  taken : Bytes

/-- One call: its result, with the bytes it stored or delivered. -/
def Used.step (u : Used) : Call → Option ((Result × Bytes) × Used)
  | .write data =>
    let (res, buffer) := u.buffer.write data
    some ((res, data), { u with buffer, written := u.written ++ data })
  | .read data =>
    let (res, data, buffer) := u.buffer.read data
    some ((res, data.take res.count), { u with buffer, taken := u.taken ++ data.take res.count })

/-- What is read and what is left to read, and the string, are what was written. -/
structure Used.Fifo (u : Used) : Prop where
  taken_append : u.taken ++ u.buffer.content.drop u.buffer.readAt = u.written
  toString_eq : u.buffer.toString = u.written

/-- A write finds a buffer nothing was written to, or has no data, or it is longer than the content
    and all are zeros. -/
def Used.Spared (u : Used) : Call → Prop
  | .write data => data = [] ∨ u.buffer.content = [] ∨
      u.buffer.content.length < data.length ∧ ∀ b ∈ u.buffer.content ++ data, b = 0
  | .read _ => True

/-- Words that commute with a power of one letter are powers of that letter. -/
theorem eq_of_append_replicate_comm {α : Type*} {a : α} {k : ℕ} (hk : 0 < k) {d : List α}
    (h : d ++ List.replicate k a = List.replicate k a ++ d) : ∀ b ∈ d, b = a := by
  obtain ⟨k, rfl⟩ := Nat.exists_eq_add_of_lt hk
  induction d with
  | nil => exact List.forall_mem_nil _
  | cons b d ih =>
    rw [List.replicate_succ, List.cons_append, List.cons_append, List.cons.injEq] at h
    obtain ⟨rfl, htail⟩ := h
    refine List.forall_mem_cons.2 ⟨rfl, ih ?_⟩
    rw [List.replicate_succ, htail, List.append_cons, ← List.replicate_succ', List.replicate_succ,
      List.cons_append]

/-- A word that is followed by as many letters `a` as it is preceded by letters has no other ones. -/
theorem eq_of_append_replicate {α : Type*} {a : α} {k : ℕ} (hk : 0 < k) {w d : List α}
    (h : d ++ List.replicate k a = w ++ d) : ∀ b ∈ w ++ d, b = a := by
  have hperm : (List.replicate k a).Perm w := by
    refine (List.perm_append_right_iff d).1 ?_
    rw [← h]
    exact List.perm_append_comm
  obtain rfl := List.perm_replicate.1 hperm.symm
  rw [List.forall_mem_append]
  exact ⟨fun b hb => List.eq_of_mem_replicate hb, eq_of_append_replicate_comm hk h⟩

/-- The content after a write at the front. -/
theorem content_write {b : Buffer} (hb : b.writeAt = 0) (data : Bytes) :
    (b.write data).2.content = data ++
      if b.content.length < data.length then List.replicate b.content.length 0
      else b.content.drop data.length := by
  rw [write, hb, overwrite]
  dsimp only
  rw [List.take_zero, List.nil_append, Nat.zero_add, Nat.sub_zero]
  split
  · next hlt =>
    rw [resize, List.take_of_length_le (Nat.le_add_right _ _), Nat.add_sub_cancel_left,
      List.drop_append, List.drop_eq_nil_of_le hlt.le, List.nil_append, List.drop_replicate]
    congr 2
    omega
  · rfl

/-- What a read delivers is the front of what is left to read. -/
theorem read_append (b : Buffer) (data : Bytes) :
    (b.read data).1.count = ((b.read data).2.1.take (b.read data).1.count).length ∧
      (b.read data).2.1.take (b.read data).1.count ++
        b.content.drop (b.read data).2.2.readAt = b.content.drop b.readAt := by
  have hlen : (subspan b.content b.readAt (min data.length (b.content.length - b.readAt))).length =
      min data.length (b.content.length - b.readAt) := by
    rw [subspan, List.length_take, List.length_drop]
    omega
  have htake : (b.read data).2.1.take (b.read data).1.count =
      subspan b.content b.readAt (min data.length (b.content.length - b.readAt)) := by
    rw [read, overwrite]
    dsimp only
    rw [List.take_zero, List.nil_append]
    exact List.take_left' hlen
  rw [htake]
  refine ⟨hlen.symm, ?_⟩
  rw [read, subspan]
  dsimp only
  rw [← List.drop_drop, List.take_append_drop]

namespace Used

variable {u u' : Used}

@[simp] theorem step_write (u : Used) (data : Bytes) : u.step (.write data) =
    some ((⟨data.length, none⟩, data),
      ⟨(u.buffer.write data).2, u.written ++ data, u.taken⟩) := rfl

@[simp] theorem step_read (u : Used) (data : Bytes) : u.step (.read data) =
    some (((u.buffer.read data).1, (u.buffer.read data).2.1.take (u.buffer.read data).1.count),
      ⟨(u.buffer.read data).2.2, u.written,
        u.taken ++ (u.buffer.read data).2.1.take (u.buffer.read data).1.count⟩) := rfl

/-- What holds of a buffer in use, whatever the writes overwrite: the content has no more bytes than
    were written, and none but those and zeros. -/
structure WellFormed (u : Used) : Prop where
  writeAt_eq : u.buffer.writeAt = 0
  readAt_le : u.buffer.readAt ≤ u.buffer.content.length
  length_le : u.buffer.content.length ≤ u.written.length
  mem : ∀ b ∈ u.buffer.content, b = 0 ∨ b ∈ u.written

/-- Every call keeps a buffer well formed. -/
theorem WellFormed.step {c : Call} {o : Result × Bytes} (h : u.WellFormed)
    (hstep : u.step c = some (o, u')) : u'.WellFormed := by
  have hread := h.readAt_le
  cases c with
  | write data =>
    rw [step_write, Option.some.injEq, Prod.mk.injEq] at hstep
    obtain ⟨-, rfl⟩ := hstep
    have hcontent := content_write h.writeAt_eq data
    have hlen := congrArg List.length hcontent
    rw [List.length_append, apply_ite List.length, List.length_replicate, List.length_drop] at hlen
    have hle := h.length_le
    refine ⟨h.writeAt_eq, ?_, ?_, fun b hb => ?_⟩
    · change u.buffer.readAt ≤ _
      dsimp only
      split at hlen <;> omega
    · dsimp only
      rw [List.length_append]
      split at hlen <;> omega
    · dsimp only at hb
      rw [hcontent, List.mem_append] at hb
      rw [List.mem_append]
      rcases hb with hb | hb
      · exact .inr (.inr hb)
      · split at hb
        · exact .inl (List.eq_of_mem_replicate hb)
        · exact (h.mem b (List.mem_of_mem_drop hb)).imp_right .inl
  | read data =>
    rw [step_read, Option.some.injEq, Prod.mk.injEq] at hstep
    obtain ⟨-, rfl⟩ := hstep
    refine ⟨h.writeAt_eq, ?_, h.length_le, h.mem⟩
    dsimp only [Buffer.read]
    omega

/-- A write that is spared puts its data behind the content. -/
theorem content_of_spared (h : u.WellFormed) {data : Bytes} (hspared : u.Spared (.write data)) :
    (u.buffer.write data).2.content = u.buffer.content ++ data := by
  rw [content_write h.writeAt_eq]
  rcases hspared with rfl | hnil | ⟨hlt, hzero⟩
  · simp
  · simp [hnil]
  · rw [List.forall_mem_append] at hzero
    rw [if_pos hlt, List.eq_replicate_of_mem hzero.1, List.eq_replicate_of_mem hzero.2,
      List.length_replicate, List.replicate_append_replicate, List.replicate_append_replicate,
      Nat.add_comm]

/-- Only a write that is spared has all bytes written in the content after it, where they were
    before. -/
theorem spared_of_content (h : u.WellFormed) {data : Bytes}
    (hcontent : (u.buffer.write data).2.content = u.written ++ data) :
    u.buffer.content = u.written ∧ u.Spared (.write data) := by
  have hle := h.length_le
  rw [content_write h.writeAt_eq] at hcontent
  by_cases hnil : data = []
  · subst hnil
    refine ⟨?_, .inl rfl⟩
    simpa using hcontent
  have hpos := List.length_pos_iff.2 hnil
  have hlen := congrArg List.length hcontent
  by_cases hlt : u.buffer.content.length < data.length
  · rw [if_pos hlt] at hcontent hlen
    rw [List.length_append, List.length_append, List.length_replicate] at hlen
    rcases Nat.eq_zero_or_pos u.buffer.content.length with h0 | hcpos
    · have hwritten : u.written = [] := List.length_eq_zero_iff.1 (by omega)
      rw [List.length_eq_zero_iff] at h0
      exact ⟨by rw [h0, hwritten], .inr (.inl h0)⟩
    · -- all that was written is zero, and so is the content
      have hzero := eq_of_append_replicate hcpos hcontent
      rw [List.forall_mem_append] at hzero
      have hzero' : ∀ b ∈ u.buffer.content, b = 0 :=
        fun b hb => (h.mem b hb).elim id (hzero.1 b)
      refine ⟨?_, .inr (.inr ⟨hlt, List.forall_mem_append.2 ⟨hzero', hzero.2⟩⟩)⟩
      rw [List.eq_replicate_of_mem hzero', List.eq_replicate_of_mem hzero.1]
      congr 1
      omega
  · rw [if_neg hlt] at hlen
    rw [List.length_append, List.length_append, List.length_drop] at hlen
    omega

/-- A call that is spared keeps the queue. -/
theorem Fifo.step {c : Call} {o : Result × Bytes} (hu : u.WellFormed) (h : u.Fifo)
    (hspared : u.Spared c) (hstep : u.step c = some (o, u')) : u'.Fifo := by
  cases c with
  | write data =>
    rw [step_write, Option.some.injEq, Prod.mk.injEq] at hstep
    obtain ⟨-, rfl⟩ := hstep
    have hcontent := content_of_spared hu hspared
    refine ⟨?_, ?_⟩
    · change u.taken ++ (u.buffer.write data).2.content.drop u.buffer.readAt = _
      rw [hcontent, List.drop_append_of_le_length hu.readAt_le, ← List.append_assoc, h.taken_append]
    · change (u.buffer.write data).2.content = _
      rw [hcontent]
      exact congrArg (· ++ data) h.toString_eq
  | read data =>
    rw [step_read, Option.some.injEq, Prod.mk.injEq] at hstep
    obtain ⟨-, rfl⟩ := hstep
    refine ⟨?_, h.toString_eq⟩
    rw [← h.taken_append, ← (read_append u.buffer data).2, List.append_assoc]
    rfl

/-- A call that leaves a queue found one, and is spared. -/
theorem Fifo.of_step {c : Call} {o : Result × Bytes} (hu : u.WellFormed)
    (hstep : u.step c = some (o, u')) (h : u'.Fifo) : u.Fifo ∧ u.Spared c := by
  cases c with
  | write data =>
    rw [step_write, Option.some.injEq, Prod.mk.injEq] at hstep
    obtain ⟨-, rfl⟩ := hstep
    obtain ⟨heq, hspared⟩ := spared_of_content hu h.toString_eq
    refine ⟨⟨?_, heq⟩, hspared⟩
    have htaken : u.taken ++ (u.buffer.write data).2.content.drop u.buffer.readAt =
        u.written ++ data := h.taken_append
    rw [content_of_spared hu hspared, List.drop_append_of_le_length hu.readAt_le,
      ← List.append_assoc] at htaken
    exact List.append_cancel_right htaken
  | read data =>
    rw [step_read, Option.some.injEq, Prod.mk.injEq] at hstep
    obtain ⟨-, rfl⟩ := hstep
    refine ⟨⟨?_, h.toString_eq⟩, trivial⟩
    rw [← (read_append u.buffer data).2, ← List.append_assoc]
    exact h.taken_append

/-- A call counts the bytes it stores or delivers. -/
theorem count_of_step {c : Call} {o : Result × Bytes} (hstep : u.step c = some (o, u')) :
    o.1.count = o.2.length := by
  cases c with
  | write data =>
    cases hstep
    rfl
  | read data =>
    rw [step_read, Option.some.injEq, Prod.mk.injEq] at hstep
    obtain ⟨rfl, -⟩ := hstep
    exact (read_append u.buffer data).1

end Used

/-- In every run of writes and reads of a new buffer: at the end, what was read, followed by what is
    left to read, is what was written, and so is the string, with every count that of the bytes stored
    or delivered, if and only if every write is spared. -/
theorem exec_fifo_iff (calls : List Call) :
    ∃ results u, exec Used.step ⟨new, [], []⟩ calls = some (results, u) ∧
      ((u.Fifo ∧ ∀ o ∈ results, o.1.count = o.2.length) ↔
        Along Used.step Used.Spared ⟨new, [], []⟩ calls) := by
  have htotal : ∀ u c, ∃ o u', Used.step u c = some (o, u') := fun u c => by
    cases c with
    | write data => exact ⟨_, _, u.step_write data⟩
    | read data => exact ⟨_, _, u.step_read data⟩
  obtain ⟨results, u, hexec⟩ := exists_exec htotal ⟨new, [], []⟩ calls
  have hnew : Used.WellFormed ⟨new, [], []⟩ := ⟨rfl, le_rfl, le_rfl, List.forall_mem_nil _⟩
  have hu : u.WellFormed := exec_invariant Used.WellFormed (fun _ _ _ _ => .step) hnew hexec
  have hcount : ∀ o ∈ results, o.1.count = o.2.length :=
    exec_outputs (fun _ => True) (fun _ _ _ _ _ hstep => ⟨Used.count_of_step hstep, trivial⟩)
      trivial hexec
  refine ⟨results, u, hexec, (and_iff_left hcount).trans ?_⟩
  have hiff : (u.WellFormed → u.Fifo) ↔ Along Used.step Used.Spared ⟨new, [], []⟩ calls := by
    refine exec_iff_along (P := fun u => u.WellFormed → u.Fifo)
      (fun u => u.WellFormed ∧ u.Fifo) ?_ ?_ ?_ ?_ ⟨hnew, rfl, rfl⟩ hexec
    · exact fun _ hs _ => hs.2
    · exact fun s c o s' hs hC hstep => ⟨hs.1.step hstep, hs.2.step hs.1 hC hstep⟩
    · exact fun s c o s' hs hC hstep h => hC (Used.Fifo.of_step hs.1 hstep (h (hs.1.step hstep))).2
    · exact fun s c o s' hstep h hs => (Used.Fifo.of_step hs hstep (h (hs.step hstep))).1
  rw [← hiff]
  exact ⟨fun h _ => h, fun h => h hu⟩

/-- Two writes of one byte: the second one is stored over the first. -/
theorem exec_overwrites :
    ∃ results u, exec Used.step ⟨new, [], []⟩ [.write [1], .write [2]] = some (results, u) ∧
      u.buffer.toString = [2] ∧ u.written = [1, 2] ∧ ¬u.Fifo :=
  ⟨_, _, rfl, rfl, rfl, fun h => absurd h.toString_eq (by decide)⟩

end Buffer

end Cppnet.Io
