import Cppnet.Ip.Basic
import Cppnet.Lib.Digits

/-!
# The order of IP addresses

The integers of an address have its bytes for digits, the first one the most significant, and so `operator<=>`, which
goes by the bytes, goes by the integers.

* `address_order`: addresses of integers are those whose integers these are, and `operator<=>` goes by the integers.
-/

namespace Cppnet

open Lib

/-! ## Bytes as digits -/

/-- The digits that bytes are. -/
def octets (s : Bytes) : List ℕ := s.map UInt8.toNat

@[simp] theorem octets_nil : octets [] = [] := rfl

@[simp] theorem octets_cons (b : Byte) (s : Bytes) : octets (b :: s) = b.toNat :: octets s := rfl

@[simp] theorem length_octets (s : Bytes) : (octets s).length = s.length := List.length_map _

theorem octets_append (s t : Bytes) : octets (s ++ t) = octets s ++ octets t := List.map_append

theorem octets_lt (s : Bytes) : ∀ d ∈ octets s, d < 2 ^ 8 := by
  rw [octets, List.forall_mem_map]
  exact fun b _ => b.toNat_lt

theorem octets_inj {s t : Bytes} : octets s = octets t ↔ s = t :=
  (List.map_injective_iff.2 fun _ _ => UInt8.toNat_inj.1).eq_iff

/-- A comparison by `<` and `=`, of other values that these are the same of. -/
theorem compareOfLessAndEq_congr {α β : Type*} [LT α] [DecidableLT α] [DecidableEq α] [LT β] [DecidableLT β]
    [DecidableEq β] {l r : α} {l' r' : β} (hlt : l < r ↔ l' < r') (heq : l = r ↔ l' = r') :
    compareOfLessAndEq l r = compareOfLessAndEq l' r' := by
  rw [compareOfLessAndEq, compareOfLessAndEq]
  simp only [hlt, heq]

theorem compare_toNat (l r : Byte) : compare l r = compare l.toNat r.toNat :=
  compareOfLessAndEq_congr UInt8.lt_iff_toNat_lt UInt8.toNat_inj.symm

/-- The loop ends at the first bytes that are not the same, as the order of lists does. -/
theorem compareData_eq {lhs rhs : Bytes} (hlen : lhs.length = rhs.length) :
    compareData lhs rhs = compare (octets lhs) (octets rhs) := by
  induction lhs generalizing rhs with
  | nil =>
    cases List.length_eq_zero_iff.1 hlen.symm
    rfl
  | cons l lhs ih =>
    cases rhs with
    | nil => cases hlen
    | cons r rhs =>
      rw [compareData, ih (Nat.succ.inj hlen), octets_cons, octets_cons, List.compare_cons_cons, compare_toNat]
      cases compare l.toNat r.toNat <;> rfl

/-- The loop compares the numbers. -/
theorem compareData_value {lhs rhs : Bytes} (hlen : lhs.length = rhs.length) :
    compareData lhs rhs = compare (Bits.value 8 (octets lhs)) (Bits.value 8 (octets rhs)) := by
  rw [compareData_eq hlen, Bits.compare_value (by rw [length_octets, length_octets, hlen]) (octets_lt lhs)
    (octets_lt rhs)]

theorem compareData_eq_eq {lhs rhs : Bytes} (hlen : lhs.length = rhs.length) :
    compareData lhs rhs = .eq ↔ lhs = rhs := by
  rw [compareData_eq hlen, Std.LawfulEqCmp.compare_eq_iff_eq, octets_inj]

/-- The number of bytes is found by shifting them. -/
theorem value_octets_cons (b : Byte) (s : Bytes) :
    Bits.value 8 (octets (b :: s)) = b.toNat <<< (8 * s.length) ||| Bits.value 8 (octets s) := by
  rw [octets_cons, Bits.value_cons_or _ (octets_lt s), length_octets]

/-- A byte that is shifted stays below `2 ^ n`. -/
theorem shiftLeft_mod {k n : ℕ} (b : Byte) (hk : k + 8 ≤ n) : b.toNat <<< k % 2 ^ n = b.toNat <<< k := by
  refine Nat.mod_eq_of_lt ?_
  rw [Nat.shiftLeft_eq]
  calc b.toNat * 2 ^ k < 2 ^ 8 * 2 ^ k := Nat.mul_lt_mul_of_pos_right b.toNat_lt (Nat.two_pow_pos k)
    _ = 2 ^ (k + 8) := by rw [Nat.mul_comm, ← Nat.pow_add]
    _ ≤ 2 ^ n := Nat.pow_le_pow_right Nat.two_pos hk

theorem toList_eq_ofFn {α : Type*} {n : ℕ} (v : Vector α n) : v.toList = List.ofFn v.get := by
  rw [← Vector.toList_ofFn]
  congr 1
  exact Vector.ofFn_getElem.symm

/-! ## Integers -/

/-- A byte that is shifted within 32 bits. -/
theorem toNat_shiftLeft_toUInt32 (b : Byte) {k : UInt32} (hk : k.toNat + 8 ≤ 32) :
    (b.toUInt32 <<< k).toNat = b.toNat <<< k.toNat := by
  rw [UInt32.toNat_shiftLeft, UInt8.toNat_toUInt32, Nat.mod_eq_of_lt (show k.toNat < 32 by omega), shiftLeft_mod b hk]

/-- A byte that is shifted within 64 bits. -/
theorem toNat_shiftLeft_toUInt64 (b : Byte) {k : UInt64} (hk : k.toNat + 8 ≤ 64) :
    (b.toUInt64 <<< k).toNat = b.toNat <<< k.toNat := by
  rw [UInt64.toNat_shiftLeft, UInt8.toNat_toUInt64, Nat.mod_eq_of_lt (show k.toNat < 64 by omega), shiftLeft_mod b hk]

namespace Ipv4Addr

/-- The integer has the bytes for digits. -/
theorem toNat_toUInt32_eq_value (a : Ipv4Addr) : a.toUInt32.toNat = Bits.value 8 (octets a.data.toList) := by
  have hdata : a.data.toList = [a.data[0], a.data[1], a.data[2], a.data[3]] := toList_eq_ofFn a.data
  rw [hdata]
  simp (disch := decide) only [toUInt32, UInt32.toNat_or, toNat_shiftLeft_toUInt32, value_octets_cons, octets_nil,
    Bits.value_nil, Nat.or_zero, Nat.or_assoc]
  rfl

/-- The address has the digits of the integer for bytes. -/
theorem octets_ofUInt32 (addr : UInt32) : octets (ofUInt32 addr).data.toList = Bits.digits 8 4 addr.toNat := rfl

theorem toUInt32_ofUInt32 (addr : UInt32) : (ofUInt32 addr).toUInt32 = addr := by
  rw [← UInt32.toNat_inj, toNat_toUInt32_eq_value, octets_ofUInt32, Bits.value_digits]
  exact Nat.mod_eq_of_lt addr.toNat_lt

theorem compare_eq (a b : Ipv4Addr) : compare a b = compare a.toUInt32 b.toUInt32 := by
  have hcompare : compare a.toUInt32 b.toUInt32 = compare a.toUInt32.toNat b.toUInt32.toNat :=
    compareOfLessAndEq_congr UInt32.lt_iff_toNat_lt UInt32.toNat_inj.symm
  rw [hcompare, toNat_toUInt32_eq_value, toNat_toUInt32_eq_value]
  exact compareData_value (a.data.length_toList.trans b.data.length_toList.symm)

theorem compare_eq_eq {a b : Ipv4Addr} : compare a b = .eq ↔ a = b := by
  obtain ⟨a⟩ := a
  obtain ⟨b⟩ := b
  rw [mk.injEq, ← Vector.toList_inj]
  exact compareData_eq_eq (a.length_toList.trans b.length_toList.symm)

theorem ofUInt32_toUInt32 (a : Ipv4Addr) : ofUInt32 a.toUInt32 = a := by
  rw [← compare_eq_eq, compare_eq, toUInt32_ofUInt32]
  exact Std.ReflCmp.compare_self

end Ipv4Addr

namespace Ipv6Addr

variable (a : Ipv6Addr)

/-- The bytes of the subnet. -/
def subnetData : Bytes := a.data.toList.take 8

/-- The bytes of the interface. -/
def interfaceData : Bytes := a.data.toList.drop 8

/-- The integers have the halves for digits. -/
theorem toNat_subnetPrefix : a.subnetPrefix.toNat = Bits.value 8 (octets a.subnetData) := by
  have hdata : a.subnetData =
      [a.data[0], a.data[1], a.data[2], a.data[3], a.data[4], a.data[5], a.data[6], a.data[7]] := by
    rw [subnetData, toList_eq_ofFn]
    rfl
  rw [hdata]
  simp (disch := decide) only [subnetPrefix, UInt64.toNat_or, toNat_shiftLeft_toUInt64, value_octets_cons, octets_nil,
    Bits.value_nil, Nat.or_zero, Nat.or_assoc]
  rfl

@[inherit_doc toNat_subnetPrefix]
theorem toNat_interfaceIdentifier : a.interfaceIdentifier.toNat = Bits.value 8 (octets a.interfaceData) := by
  have hdata : a.interfaceData =
      [a.data[8], a.data[9], a.data[10], a.data[11], a.data[12], a.data[13], a.data[14], a.data[15]] := by
    rw [interfaceData, toList_eq_ofFn]
    rfl
  rw [hdata]
  simp (disch := decide) only [interfaceIdentifier, UInt64.toNat_or, toNat_shiftLeft_toUInt64, value_octets_cons,
    octets_nil, Bits.value_nil, Nat.or_zero, Nat.or_assoc]
  rfl

/-- The number of an address, by its integers. -/
theorem value_data : Bits.value 8 (octets a.data.toList) =
    2 ^ 64 * a.subnetPrefix.toNat + a.interfaceIdentifier.toNat := by
  have hlen : a.interfaceData.length = 8 := by rw [interfaceData, List.length_drop, Vector.length_toList]
  have hdata : a.data.toList = a.subnetData ++ a.interfaceData := (List.take_append_drop 8 _).symm
  rw [toNat_subnetPrefix, toNat_interfaceIdentifier, hdata, octets_append, Bits.value_append, length_octets, hlen]

theorem subnetPrefix_ofIntegers (subnet interface : UInt64) : (ofIntegers subnet interface).subnetPrefix = subnet := by
  have hdigits : octets (ofIntegers subnet interface).subnetData = Bits.digits 8 8 subnet.toNat := rfl
  rw [← UInt64.toNat_inj, toNat_subnetPrefix, hdigits, Bits.value_digits]
  exact Nat.mod_eq_of_lt subnet.toNat_lt

theorem interfaceIdentifier_ofIntegers (subnet interface : UInt64) :
    (ofIntegers subnet interface).interfaceIdentifier = interface := by
  have hdigits : octets (ofIntegers subnet interface).interfaceData = Bits.digits 8 8 interface.toNat := rfl
  rw [← UInt64.toNat_inj, toNat_interfaceIdentifier, hdigits, Bits.value_digits]
  exact Nat.mod_eq_of_lt interface.toNat_lt

theorem compare_eq (a b : Ipv6Addr) : compare a b =
    (compare a.subnetPrefix b.subnetPrefix).then (compare a.interfaceIdentifier b.interfaceIdentifier) := by
  have hcompare : ∀ m n : UInt64, compare m n = compare m.toNat n.toNat := fun m n =>
    compareOfLessAndEq_congr UInt64.lt_iff_toNat_lt UInt64.toNat_inj.symm
  rw [hcompare, hcompare, ← Bits.compare_mul_add a.interfaceIdentifier.toNat_lt b.interfaceIdentifier.toNat_lt,
    ← value_data, ← value_data]
  exact compareData_value (a.data.length_toList.trans b.data.length_toList.symm)

theorem compare_eq_eq {a b : Ipv6Addr} : compare a b = .eq ↔ a = b := by
  obtain ⟨a⟩ := a
  obtain ⟨b⟩ := b
  rw [mk.injEq, ← Vector.toList_inj]
  exact compareData_eq_eq (a.length_toList.trans b.length_toList.symm)

theorem ofIntegers_eq (a : Ipv6Addr) : ofIntegers a.subnetPrefix a.interfaceIdentifier = a := by
  have hself : ∀ n : UInt64, compare n n = .eq := fun _ => Std.ReflCmp.compare_self
  rw [← compare_eq_eq, compare_eq, subnetPrefix_ofIntegers, interfaceIdentifier_ofIntegers, hself, hself]
  rfl

end Ipv6Addr

/-- The integers of an address are those it is built of, and every address is built of its integers. Addresses are in
    the order of their integers, that of the subnet before that of the interface, and are only equal if they are the
    same. -/
theorem address_order :
    (∀ addr : UInt32, (Ipv4Addr.ofUInt32 addr).toUInt32 = addr) ∧
    (∀ a : Ipv4Addr, .ofUInt32 a.toUInt32 = a) ∧
    (∀ a b : Ipv4Addr, compare a b = compare a.toUInt32 b.toUInt32 ∧ (compare a b = .eq ↔ a == b)) ∧
    (∀ subnet interface : UInt64, (Ipv6Addr.ofIntegers subnet interface).subnetPrefix = subnet ∧
      (Ipv6Addr.ofIntegers subnet interface).interfaceIdentifier = interface) ∧
    (∀ a : Ipv6Addr, .ofIntegers a.subnetPrefix a.interfaceIdentifier = a) ∧
    ∀ a b : Ipv6Addr, compare a b =
        (compare a.subnetPrefix b.subnetPrefix).then (compare a.interfaceIdentifier b.interfaceIdentifier) ∧
      (compare a b = .eq ↔ a == b) := by
  refine ⟨Ipv4Addr.toUInt32_ofUInt32, Ipv4Addr.ofUInt32_toUInt32, fun a b => ⟨Ipv4Addr.compare_eq a b, ?_⟩,
    fun subnet interface => ⟨Ipv6Addr.subnetPrefix_ofIntegers subnet interface,
      Ipv6Addr.interfaceIdentifier_ofIntegers subnet interface⟩, Ipv6Addr.ofIntegers_eq,
    fun a b => ⟨Ipv6Addr.compare_eq a b, ?_⟩⟩
  · rw [Ipv4Addr.compare_eq_eq, beq_iff_eq]
  · rw [Ipv6Addr.compare_eq_eq, beq_iff_eq]

end Cppnet
