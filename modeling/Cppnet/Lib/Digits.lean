import Cppnet.Lib.Bits
import Mathlib.Order.Compare

/-!
# Numbers and their digits

The number of digits of `w` bits each, the most significant one first (`Bits.value`). It is found by shifting and
disjunction as well (`value_cons_or`), and the digits in it by shifting and a remainder (`digits`).

* `value_digits`: the digits of a number make up that number, as far as they go;
* `compare_value`: as many digits are in the order of their numbers if the first that is not the same decides.
-/

namespace Lib.Bits

variable {w k n x y : ℕ} {ds es : List ℕ}

@[simp] theorem value_nil (w : ℕ) : value w [] = 0 := rfl

theorem value_append (w : ℕ) (ds es : List ℕ) :
    value w (ds ++ es) = 2 ^ (w * es.length) * value w ds + value w es := by
  induction es using List.reverseRecOn with
  | nil =>
    rw [List.append_nil, List.length_nil, Nat.mul_zero, Nat.pow_zero, Nat.one_mul, value_nil, Nat.add_zero]
  | append_singleton es e ih =>
    rw [← List.append_assoc, value_concat, value_concat, ih, List.length_append, List.length_singleton, Nat.mul_succ,
      Nat.pow_add, Nat.mul_add, Nat.mul_left_comm, Nat.mul_assoc, Nat.mul_left_comm, Nat.add_assoc]

theorem value_cons (w d : ℕ) (ds : List ℕ) : value w (d :: ds) = 2 ^ (w * ds.length) * d + value w ds := by
  have h := value_append w [d] ds
  have hd : value w [d] = d := by rw [value, List.foldl_cons, List.foldl_nil, Nat.mul_zero, Nat.zero_add]
  rwa [hd, List.singleton_append] at h

theorem value_lt (hds : ∀ d ∈ ds, d < 2 ^ w) : value w ds < 2 ^ (w * ds.length) := by
  induction ds with
  | nil => exact Nat.one_pos
  | cons d ds ih =>
    rw [List.forall_mem_cons] at hds
    rw [value_cons, List.length_cons, Nat.mul_succ, Nat.pow_add]
    calc 2 ^ (w * ds.length) * d + value w ds < 2 ^ (w * ds.length) * d + 2 ^ (w * ds.length) :=
          Nat.add_lt_add_left (ih hds.2) _
      _ = 2 ^ (w * ds.length) * (d + 1) := rfl
      _ ≤ 2 ^ (w * ds.length) * 2 ^ w := Nat.mul_le_mul_left _ hds.1

/-- The first digit is shifted in front of the others. -/
theorem value_cons_or (d : ℕ) (hds : ∀ d ∈ ds, d < 2 ^ w) :
    value w (d :: ds) = d <<< (w * ds.length) ||| value w ds := by
  rw [value_cons, Nat.two_pow_add_eq_or_of_lt (value_lt hds), Nat.shiftLeft_eq, Nat.mul_comm]

/-! ## The digits of a number -/

/-- The last `k` digits of a number. -/
def digits (w : ℕ) : ℕ → ℕ → List ℕ
  | 0, _ => []
  | k + 1, n => n >>> (w * k) % 2 ^ w :: digits w k n

@[simp] theorem length_digits (w k n : ℕ) : (digits w k n).length = k := by
  induction k with
  | zero => rfl
  | succ k ih => rw [digits, List.length_cons, ih]

theorem value_digits (w k n : ℕ) : value w (digits w k n) = n % 2 ^ (w * k) := by
  induction k with
  | zero => exact (Nat.mod_one n).symm
  | succ k ih =>
    rw [digits, value_cons, length_digits, ih, Nat.shiftRight_eq_div_pow, Nat.mul_succ, Nat.pow_add, Nat.mod_mul,
      Nat.add_comm]

/-! ## Order -/

/-- The more significant part decides, if it is not the same. -/
theorem compare_mul_add {m d e : ℕ} (hx : x < m) (hy : y < m) :
    compare (m * d + x) (m * e + y) = (compare d e).then (compare x y) := by
  rcases lt_trichotomy d e with hlt | rfl | hgt
  · have hlt' : m * d + x < m * e + y := by
      calc m * d + x < m * d + m := Nat.add_lt_add_left hx _
        _ = m * (d + 1) := rfl
        _ ≤ m * e := Nat.mul_le_mul_left m hlt
        _ ≤ m * e + y := Nat.le_add_right _ _
    rw [Nat.compare_eq_lt.2 hlt, Nat.compare_eq_lt.2 hlt']
    rfl
  · rw [Nat.compare_eq_eq.2 rfl, Ordering.then]
    rcases lt_trichotomy x y with h | rfl | h
    · rw [Nat.compare_eq_lt.2 h, Nat.compare_eq_lt.2 (Nat.add_lt_add_left h _)]
    · rw [Nat.compare_eq_eq.2 rfl, Nat.compare_eq_eq.2 rfl]
    · rw [Nat.compare_eq_gt.2 h, Nat.compare_eq_gt.2 (Nat.add_lt_add_left h _)]
  · have hgt' : m * e + y < m * d + x := by
      calc m * e + y < m * e + m := Nat.add_lt_add_left hy _
        _ = m * (e + 1) := rfl
        _ ≤ m * d := Nat.mul_le_mul_left m hgt
        _ ≤ m * d + x := Nat.le_add_right _ _
    rw [Nat.compare_eq_gt.2 hgt, Nat.compare_eq_gt.2 hgt']
    rfl

theorem compare_value (hlen : ds.length = es.length) (hds : ∀ d ∈ ds, d < 2 ^ w) (hes : ∀ e ∈ es, e < 2 ^ w) :
    compare ds es = compare (value w ds) (value w es) := by
  induction ds generalizing es with
  | nil =>
    cases List.length_eq_zero_iff.1 hlen.symm
    rfl
  | cons d ds ih =>
    cases es with
    | nil => cases hlen
    | cons e es =>
      rw [List.forall_mem_cons] at hds hes
      have hlen := Nat.succ.inj hlen
      have hlt := value_lt hds.2
      rw [hlen] at hlt
      rw [value_cons, value_cons, hlen, compare_mul_add hlt (value_lt hes.2), ← ih hlen hds.2 hes.2,
        List.compare_cons_cons]

end Lib.Bits
