import Cppnet.Lib.Machine
import Mathlib.Data.Nat.ModEq

/-!
# `ring_buffer`

`util/ring_buffer.hpp`: a queue in an array of `N` elements, whose indices wrap around. When it is full,
one more element takes the place of the oldest one.

An array has fewer than `2 ^ 63` elements, so that none of the sums of indices overflows.
-/

namespace Cppnet.Util

open Lib

/-- `ring_buffer<T, N>`. -/
structure RingBuffer (T : Type*) (N : ℕ) where
  values : Vector T N
  begin : ℕ
  currentSize : ℕ

/-- The operations that change a queue. -/
inductive QueueOp (T : Type*)
  | push (value : T)
  | pop

namespace RingBuffer

variable {T : Type*} {N : ℕ}

/-- A new one: `values{}` are the default ones. -/
def empty [Inhabited T] : RingBuffer T N := ⟨Vector.replicate N default, 0, 0⟩

/-- `size`. -/
def size (b : RingBuffer T N) : ℕ := b.currentSize

variable [NeZero N]

/-- An index of the array, modulo `capacity()`. -/
def wrap (i : ℕ) : Fin N := ⟨i % N, Nat.mod_lt i (Nat.pos_of_neZero N)⟩

/-- Assigning an element of the array. -/
def assign (values : Vector T N) (i : Fin N) (value : T) : Vector T N := values.set i value

/-- `push`. -/
def push (b : RingBuffer T N) (value : T) : RingBuffer T N :=
  let values := assign b.values (wrap (b.begin + b.currentSize)) value
  if b.currentSize + 1 > N then { b with values, begin := (b.begin + 1) % N }
  else { b with values, currentSize := b.currentSize + 1 }

/-- `pop`. -/
def pop (b : RingBuffer T N) : T × RingBuffer T N :=
  (b.values.get (wrap b.begin),
    { b with
      begin := (b.begin + 1) % N
      -- Popping from an empty buffer moves `begin` all the same.
      currentSize := if b.currentSize ≠ 0 then b.currentSize - 1 else b.currentSize })

/-- `operator[]`. -/
def get (b : RingBuffer T N) (index : ℕ) : T := b.values.get (wrap (b.begin + index))

/-- One operation, with what it returns. -/
def step (b : RingBuffer T N) : QueueOp T → Option (Option T × RingBuffer T N)
  | .push value => some (none, b.push value)
  | .pop => some (some b.pop.1, b.pop.2)

end RingBuffer

/-! ## The queue it is -/

/-- A queue of at most `N` elements, the oldest one first, which drops the oldest one for a new one. -/
def boundedPush {T : Type*} (N : ℕ) (q : List T) (value : T) : List T :=
  (if q.length < N then q else q.tail) ++ [value]

/-- One operation on the queue: `pop` returns the oldest element, if there is one. -/
def boundedStep {T : Type*} (N : ℕ) (q : List T) : QueueOp T → Option (Option T × List T)
  | .push value => some (none, boundedPush N q value)
  | .pop => some (q.head?, q.tail)

namespace RingBuffer

variable {T : Type*} {N : ℕ} [NeZero N] {b : RingBuffer T N} {q : List T}

theorem wrap_mod_add (i j : ℕ) : wrap (N := N) (i % N + j) = wrap (i + j) := by
  rw [wrap, wrap, Fin.mk.injEq, Nat.mod_add_mod]

/-- Different positions of a queue are different ones of the array. -/
theorem wrap_inj {a i j : ℕ} (hi : i < N) (hj : j < N) (h : wrap (N := N) (a + i) = wrap (a + j)) :
    i = j := by
  have hmod : a + i ≡ a + j [MOD N] := Fin.mk.inj h
  exact Nat.ModEq.eq_of_lt_of_lt hmod.add_left_cancel' hi hj

/-- The buffer holds the queue: the elements from `begin` on are those of the queue. -/
structure Holds (b : RingBuffer T N) (q : List T) : Prop where
  size : b.size = q.length
  le : q.length ≤ N
  get : ∀ i < q.length, q[i]? = some (b.get i)

theorem holds_empty [Inhabited T] : (empty : RingBuffer T N).Holds [] :=
  ⟨rfl, Nat.zero_le N, fun _ hi => absurd hi (Nat.not_lt_zero _)⟩

/-- Writing at one position of a queue, and reading at another. -/
theorem get_assign (values : Vector T N) (a : ℕ) {i j : ℕ} (hi : i < N) (hj : j < N) (value : T) :
    (assign values (wrap (a + i)) value).get (wrap (a + j)) =
      if j = i then value else values.get (wrap (a + j)) := by
  have hget : ∀ (values : Vector T N) (k : Fin N), values.get k = values[k.1] := fun _ _ => rfl
  rw [hget, hget, assign, Vector.getElem_set]
  split_ifs with hwrap heq heq
  · rfl
  · exact absurd (wrap_inj hj hi (Fin.ext hwrap.symm)) heq
  · exact absurd (heq ▸ rfl) hwrap
  · rfl

theorem Holds.push (h : b.Holds q) (value : T) : (b.push value).Holds (boundedPush N q value) := by
  have hpos := Nat.pos_of_neZero N
  have hle := h.le
  obtain ⟨values, start, n⟩ := b
  obtain rfl : n = q.length := h.size
  rw [RingBuffer.push, boundedPush]
  dsimp only
  by_cases hlt : q.length < N
  · rw [if_neg (by omega), if_pos hlt]
    refine ⟨by simp [RingBuffer.size], by simpa using Nat.succ_le_of_lt hlt, fun i hi => ?_⟩
    rw [List.length_append, List.length_singleton] at hi
    rw [RingBuffer.get, get_assign _ _ hlt (by omega)]
    split_ifs with heq
    · rw [heq, List.getElem?_concat_length]
    · rw [List.getElem?_append_left (by omega)]
      exact h.get i (by omega)
  · -- The new element is written over the oldest one, and the queue starts behind it.
    have hfull : q.length = N := by omega
    rw [if_pos (by omega), if_neg hlt]
    refine ⟨?_, ?_, fun i hi => ?_⟩
    · simp only [RingBuffer.size, List.length_append, List.length_tail, List.length_singleton]
      omega
    · simp only [List.length_append, List.length_tail, List.length_singleton]
      omega
    · rw [List.length_append, List.length_tail, List.length_singleton] at hi
      have hwrap : wrap (N := N) ((start + 1) % N + i) = wrap ((start + 1) + i) :=
        wrap_mod_add _ _
      have hlast : start + q.length = start + 1 + (N - 1) := by omega
      rw [RingBuffer.get]
      dsimp only
      rw [hwrap, hlast, get_assign _ _ (by omega) (by omega)]
      split_ifs with heq
      · rw [List.getElem?_append_right (by rw [List.length_tail]; omega), List.length_tail, heq, hfull,
          Nat.sub_self]
        rfl
      · rw [List.getElem?_append_left (by rw [List.length_tail]; omega), List.getElem?_tail,
          h.get (i + 1) (by omega), RingBuffer.get, Nat.add_assoc, Nat.add_comm 1 i]

theorem Holds.pop (h : b.Holds q) : b.pop.2.Holds q.tail ∧ ∀ value ∈ q.head?, b.pop.1 = value := by
  have hsize : b.currentSize = q.length := h.size
  have hle := h.le
  refine ⟨⟨?_, ?_, fun i hi => ?_⟩, fun value hvalue => ?_⟩
  · rw [RingBuffer.pop, RingBuffer.size, List.length_tail]
    dsimp only
    split_ifs with hzero
    · omega
    · omega
  · rw [List.length_tail]
    omega
  · rw [List.length_tail] at hi
    rw [List.getElem?_tail, h.get (i + 1) (by omega), RingBuffer.get, RingBuffer.get, RingBuffer.pop]
    dsimp only
    rw [wrap_mod_add, Nat.add_assoc, Nat.add_comm 1 i]
  · have hq : 0 < q.length := by
      rcases q with _ | ⟨x, q⟩
      · cases hvalue
      · exact Nat.succ_pos _
    have hget := h.get 0 hq
    rw [← List.head?_eq_getElem?, Option.mem_def.1 hvalue] at hget
    exact (Option.some.inj hget).symm

/-- What `pop` returns is the oldest element, if there is one. -/
def Returned (out out' : Option T) : Prop := ∀ value ∈ out', out = some value

theorem Holds.step (op : QueueOp T) {p : Option T} {q' : List T} (h : b.Holds q)
    (hq : boundedStep N q op = some (p, q')) :
    ∃ o b', b.step op = some (o, b') ∧ Returned o p ∧ b'.Holds q' := by
  cases op with
  | push value =>
    cases hq
    exact ⟨none, _, rfl, fun _ hv => absurd hv (by simp), h.push value⟩
  | pop =>
    cases hq
    exact ⟨_, _, rfl, fun v hv => congrArg some (h.pop.2 v hv), h.pop.1⟩

omit [NeZero N] in
theorem exec_boundedStep (q : List T) (ops : List (QueueOp T)) :
    ∃ outs q', exec (boundedStep N) q ops = some (outs, q') := by
  induction ops generalizing q with
  | nil => exact ⟨[], q, rfl⟩
  | cons op ops ih =>
    obtain ⟨p, q₁, hstep⟩ : ∃ p q₁, boundedStep N q op = some (p, q₁) := by
      cases op with
      | push value => exact ⟨_, _, rfl⟩
      | pop => exact ⟨_, _, rfl⟩
    obtain ⟨outs, q', hrest⟩ := ih q₁
    exact ⟨p :: outs, q', exec_cons_eq_some.2 ⟨p, q₁, outs, hstep, hrest, rfl⟩⟩

/-- A ring buffer is a bounded queue: after every list of operations it holds what the queue holds, in the
    same order, and it returned what the queue returned. -/
theorem refines_boundedQueue [Inhabited T] (ops : List (QueueOp T)) :
    ∃ outs q outs' b, exec (boundedStep N) ([] : List T) ops = some (outs, q) ∧
      exec step (empty : RingBuffer T N) ops = some (outs', b) ∧ List.Forall₂ Returned outs' outs ∧
      b.size = q.length ∧ q.length ≤ N ∧ ∀ i < b.size, q[i]? = some (b.get i) := by
  obtain ⟨outs, q, hq⟩ := exec_boundedStep (N := N) ([] : List T) ops
  obtain ⟨outs', b, hb, houts, h⟩ :=
    exec_simulation (fun b q op p q' h hq => Holds.step op h hq) (holds_empty (T := T) (N := N)) hq
  exact ⟨outs, q, outs', b, hq, hb, houts, h.size, h.le, fun i hi => h.get i (h.size ▸ hi)⟩

/-- Three elements into two places, and one `pop` more than there are elements. -/
theorem refines_boundedQueue_two :
    let ops : List (QueueOp ℕ) := [.push 1, .push 2, .push 3, .pop, .pop, .pop, .push 4]
    exec (boundedStep 2) [] ops = some ([none, none, none, some 2, some 3, none, none], [4]) ∧
      ∃ outs q outs' b, exec (boundedStep 2) ([] : List ℕ) ops = some (outs, q) ∧
        exec step (empty : RingBuffer ℕ 2) ops = some (outs', b) ∧ List.Forall₂ Returned outs' outs ∧
        b.size = q.length ∧ q.length ≤ 2 ∧ ∀ i < b.size, q[i]? = some (b.get i) :=
  ⟨by decide, refines_boundedQueue _⟩

end RingBuffer

end Cppnet.Util
