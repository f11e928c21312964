import Mathlib.Data.Nat.Bitwise
import Mathlib.Data.List.GetD
import Mathlib.Data.List.Induction

/-!
# Streams of bits

Digits of `w` bits each make up a stream of bits, in which those of a digit come with the most
significant one first (`stream`), and behind the last digit there are only zeros. Taking the stream
in groups of `v` bits gives digits of `v` bits (`regroup`).

* `regroup_append`: digits that fill a number of groups can be regrouped on their own;
* `regroup_of_fill`: there, a group is found in the `value` of the digits, the number they make up,
  by a shift and a remainder.
-/

namespace Lib.Bits

/-- A bit of the stream of the digits `ds`, of `w` bits each. -/
def stream (w : ℕ) (ds : List ℕ) (i : ℕ) : Bool := (ds.getD (i / w) 0).testBit (w - 1 - i % w)

/-- The number of `n` bits of a stream from the offset `o` on, the most significant one first. -/
def window (f : ℕ → Bool) (o n : ℕ) : ℕ := Nat.ofBits fun k : Fin n => f (o + (n - 1 - k))

/-- The first `n` groups of `v` bits of a stream. -/
def regroup (v n : ℕ) (f : ℕ → Bool) : List ℕ := (List.range n).map fun i => window f (v * i) v

/-- The number of the digits `ds`, of `w` bits each. -/
def value (w : ℕ) (ds : List ℕ) : ℕ := ds.foldl (fun n d => 2 ^ w * n + d) 0

variable {w v m n o i : ℕ} {ds es : List ℕ} {f g : ℕ → Bool}

theorem window_lt (f : ℕ → Bool) (o n : ℕ) : window f o n < 2 ^ n := Nat.ofBits_lt_two_pow _

theorem window_congr (h : ∀ k < n, f (o + k) = g (m + k)) : window f o n = window g m n := by
  rw [window, window]
  congr 1
  funext k
  exact h _ (by omega)

@[simp] theorem length_regroup (v n : ℕ) (f : ℕ → Bool) : (regroup v n f).length = n := by
  rw [regroup, List.length_map, List.length_range]

theorem take_regroup (h : m ≤ n) (f : ℕ → Bool) : (regroup v n f).take m = regroup v m f := by
  rw [regroup, regroup, ← List.map_take, List.take_range, min_eq_left h]

/-! ## Digits one after the other -/

theorem stream_append_left (h : i < w * ds.length) : stream w (ds ++ es) i = stream w ds i := by
  rw [stream, stream, List.getD_append]
  exact Nat.div_lt_of_lt_mul h

theorem stream_append_right (hw : 0 < w) (i : ℕ) :
    stream w (ds ++ es) (w * ds.length + i) = stream w es i := by
  rw [stream, stream, Nat.mul_add_div hw, Nat.mul_add_mod_self_left, List.getD_append_right _ _ _ _
    (Nat.le_add_right _ _), Nat.add_sub_cancel_left]

/-- There are zeros behind the last digit. -/
theorem stream_append_replicate (k : ℕ) :
    stream w (ds ++ List.replicate k 0) = stream w ds := by
  funext i
  rw [stream, stream]
  congr 1
  rcases Nat.lt_or_ge (i / w) ds.length with h | h
  · rw [List.getD_append _ _ _ _ h]
  · rw [List.getD_append_right _ _ _ _ h, List.getD_eq_default _ _ h, List.getD_eq_getElem?_getD,
      List.getElem?_getD_replicate_default_eq]

/-- Digits that fill `m` groups, and those behind them. -/
theorem regroup_append (hw : 0 < w) (h : w * ds.length = v * m) (n : ℕ) :
    regroup v (m + n) (stream w (ds ++ es)) =
      regroup v m (stream w ds) ++ regroup v n (stream w es) := by
  rw [regroup, regroup, regroup, List.range_add, List.map_append, List.map_map]
  congr 1
  · refine List.map_congr_left fun i hi => window_congr fun k hk => stream_append_left ?_
    rw [List.mem_range] at hi
    calc v * i + k < v * i + v := Nat.add_lt_add_left hk _
      _ = v * (i + 1) := rfl
      _ ≤ v * m := Nat.mul_le_mul_left v hi
      _ = w * ds.length := h.symm
  · refine List.map_congr_left fun i _ => window_congr fun k _ => ?_
    rw [Nat.mul_add, ← h, Nat.add_assoc, stream_append_right hw]

/-! ## The number of digits -/

theorem value_concat (w : ℕ) (ds : List ℕ) (d : ℕ) :
    value w (ds ++ [d]) = 2 ^ w * value w ds + d := by
  rw [value, List.foldl_append]
  rfl

/-- The bits of the number are those of the stream, the first one the most significant. -/
theorem testBit_value (hds : ∀ d ∈ ds, d < 2 ^ w) (h : i < w * ds.length) :
    (value w ds).testBit (w * ds.length - 1 - i) = stream w ds i := by
  have hw : 0 < w := Nat.pos_of_ne_zero fun h0 => by simp [h0] at h
  induction ds using List.reverseRecOn with
  | nil => exact absurd h (Nat.not_lt_zero _)
  | append_singleton ds d ih =>
    rw [List.forall_mem_append, List.forall_mem_singleton] at hds
    rw [List.length_append, List.length_singleton, Nat.mul_succ] at h ⊢
    rw [value_concat, Nat.testBit_two_pow_mul_add _ hds.2]
    rcases Nat.lt_or_ge i (w * ds.length) with hlt | hge
    · rw [if_neg (by omega), stream_append_left hlt, ← ih hds.1 hlt]
      congr 1
      omega
    · obtain ⟨k, rfl⟩ := Nat.exists_eq_add_of_le hge
      have hk : k < w := by omega
      rw [if_pos (by omega), stream_append_right hw, stream, Nat.div_eq_of_lt hk,
        Nat.mod_eq_of_lt hk]
      congr 1
      omega

/-- A group of the stream, in the number. -/
theorem window_stream (hds : ∀ d ∈ ds, d < 2 ^ w) (h : o + n ≤ w * ds.length) :
    window (stream w ds) o n = value w ds >>> (w * ds.length - o - n) % 2 ^ n := by
  refine Nat.eq_of_testBit_eq fun k => ?_
  rw [window, Nat.testBit_ofBits, Nat.testBit_mod_two_pow, Nat.testBit_shiftRight]
  split
  · next hk =>
    rw [decide_eq_true hk, Bool.true_and, ← testBit_value hds (by omega)]
    congr 1
    dsimp only
    omega
  · next hk => rw [decide_eq_false hk, Bool.false_and]

/-- All groups of digits that fill them, in the number. -/
theorem regroup_of_fill (hds : ∀ d ∈ ds, d < 2 ^ w) (h : w * ds.length = v * n) :
    regroup v n (stream w ds) =
      (List.range n).map fun i => value w ds >>> (v * (n - 1 - i)) % 2 ^ v := by
  refine List.map_congr_left fun i hi => ?_
  rw [List.mem_range] at hi
  have hle : v * i + v ≤ v * n := Nat.mul_le_mul_left v hi
  rw [window_stream hds (by omega), h, Nat.sub_sub, Nat.sub_right_comm, Nat.sub_sub,
    Nat.mul_sub v n, Nat.mul_add, Nat.mul_one]

end Lib.Bits
