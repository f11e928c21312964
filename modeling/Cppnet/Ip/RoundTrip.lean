import Cppnet.Ip.Basic
import Mathlib.Tactic.IntervalCases

/-!
# Reading back the text of an address

The text of an address are its parts from the last one to the first, with separators between them
(`partsText`). `to_string` writes it, without running out of its buffer, and `parse` reads it back.

* `parse_toString`: so `parse` gives the address, and `ip_addr::parse` the address of its kind.
-/

namespace Cppnet

open Util

/-! ## The text -/

theorem parseParts_cons {α : Type*} {n w base it v : ℕ} {ofNat : ℕ → α} {part : Bytes} {parts : List Bytes}
    {values : Vector α n} (hpart : fromChars w base part = .ok v) (hit : it < n) :
    parseParts w base ofNat (part :: parts) values (it + 1) =
      parseParts w base ofNat parts (values.set it (ofNat v) hit) it := by
  simp only [parseParts, hpart, dif_pos hit]

section Parts

variable (base : ℕ) (sep : Byte) (part : ℕ → ℕ)

/-- The parts up to `i`, from there down. -/
def partTexts : ℕ → List Bytes
  | 0 => [numeral base (part 0)]
  | i + 1 => numeral base (part (i + 1)) :: partTexts i

/-- The text of the parts up to `i`. -/
def partsText : ℕ → Bytes
  | 0 => numeral base (part 0)
  | i + 1 => numeral base (part (i + 1)) ++ sep :: partsText i

variable {base sep part} (hbase : 1 < base) (hbase' : base ≤ 16)

include hbase hbase'

/-- Only digits are in a part. -/
theorem not_mem_numeral {c : Byte} (hc : digit base c = none) (n : ℕ) : c ∉ numeral base n := by
  intro hmem
  have hsome := (numeral_spec hbase hbase' n).1 c hmem
  rw [hc] at hsome
  cases hsome

theorem not_mem_partsText {c : Byte} (hc : digit base c = none) (hsep : c ≠ sep) (i : ℕ) :
    c ∉ partsText base sep part i := by
  induction i with
  | zero => exact not_mem_numeral hbase hbase' hc _
  | succ i ih =>
    rw [partsText, List.mem_append, List.mem_cons, not_or, not_or]
    exact ⟨not_mem_numeral hbase hbase' hc _, hsep, ih⟩

theorem splitString_partsText (hsep : digit base sep = none) (i : ℕ) :
    splitString (partsText base sep part i) sep 0 = partTexts base part i := by
  rw [splitString_eq _ _ (Nat.zero_le _), List.drop_zero]
  induction i with
  | zero => exact List.splitOn_eq_singleton (not_mem_numeral hbase hbase' hsep _)
  | succ i ih =>
    rw [partsText, partTexts,
      List.splitOn_append_cons_self_of_not_mem (not_mem_numeral hbase hbase' hsep _), ih]

/-- Reading the parts from `i` down. -/
theorem parseParts_partTexts {α : Type*} {n w : ℕ} (ofNat : ℕ → α) (hpart : ∀ j, part j < 2 ^ w) {i : ℕ}
    (hi : i < n) (values : Vector α n) :
    ∃ values', parseParts w base ofNat (partTexts base part i) values (i + 1) = some (some values') ∧
      ∀ j (hj : j < n), values'[j] = if j ≤ i then ofNat (part j) else values[j] := by
  induction i generalizing values with
  | zero =>
    refine ⟨values.set 0 (ofNat (part 0)) hi, ?_, fun j hj => ?_⟩
    · rw [partTexts, parseParts_cons (fromChars_numeral_eq hbase hbase' (hpart 0)) hi, parseParts]
    · rw [Vector.getElem_set]
      by_cases heq : 0 = j
      · subst heq
        simp
      · rw [if_neg heq, if_neg (by omega)]
  | succ i ih =>
    obtain ⟨values', hparse, hvalues'⟩ := ih (by omega) (values.set (i + 1) (ofNat (part (i + 1))) hi)
    refine ⟨values', ?_, fun j hj => ?_⟩
    · rw [partTexts, parseParts_cons (fromChars_numeral_eq hbase hbase' (hpart _)) hi, hparse]
    · rw [hvalues' j hj, Vector.getElem_set]
      by_cases heq : i + 1 = j
      · subst heq
        simp
      · rw [if_neg heq]
        exact if_congr (by omega) rfl rfl

end Parts

/-! ## Writing -/

namespace TextBuffer

variable {size : ℕ}

theorem append_eq (b : TextBuffer size) {s : Bytes} (h : b.text.length + s.length ≤ size) :
    ∃ b', b.append s = some b' ∧ b'.text = b.text ++ s := by
  have hlen : (b.text ++ s).length ≤ size := by rwa [List.length_append]
  exact ⟨⟨b.text ++ s, hlen⟩, dif_pos hlen, rfl⟩

/-- A number of at most `width` digits, where there is room for them. -/
theorem putNumber_eq (b : TextBuffer size) {base width n : ℕ} (hbase : 1 < base) (hwidth : 0 < width)
    (hn : n < base ^ width) (hroom : b.text.length + width ≤ size) :
    ∃ b', b.putNumber base width n = some b' ∧ b'.text = b.text ++ numeral base n ∧
      b'.text.length ≤ b.text.length + width := by
  have hlen : (numeral base n).length ≤ width := by
    rw [numeral, List.length_map]
    exact (Nat.length_toDigits_le_iff hbase hwidth).2 hn
  obtain ⟨b', happend, htext⟩ := b.append_eq (s := numeral base n) (by omega)
  refine ⟨b', ?_, htext, ?_⟩
  · rw [putNumber, if_pos hroom, toChars, if_pos hlen]
    exact happend
  · rw [htext, List.length_append]
    omega

/-- A number and a separator. -/
theorem putNumber_append_eq (b : TextBuffer size) {base width n : ℕ} (hbase : 1 < base) (hwidth : 0 < width)
    (hn : n < base ^ width) (hroom : b.text.length + width + 1 ≤ size) (sep : Byte) :
    ∃ b', ((b.putNumber base width n).bind fun b => b.append [sep]) = some b' ∧
      b'.text = b.text ++ numeral base n ++ [sep] ∧ b'.text.length ≤ b.text.length + width + 1 := by
  obtain ⟨b₁, hput, htext₁, hlen₁⟩ := b.putNumber_eq hbase hwidth hn (by omega)
  obtain ⟨b', happend, htext'⟩ := b₁.append_eq (s := [sep]) (by simpa using (by omega))
  refine ⟨b', ?_, by rw [htext', htext₁], ?_⟩
  · rw [hput, Option.bind_some, happend]
  · rw [htext', List.length_append, List.length_singleton]
    omega

/-- What is taken out of a buffer fits into it. -/
theorem length_le_of_bind_map {b : Option (TextBuffer size)} {f : TextBuffer size → Option (TextBuffer size)}
    {s : Bytes} (h : (b.bind fun b => (f b).map text) = some s) : s.length ≤ size := by
  obtain ⟨b, -, h⟩ := Option.bind_eq_some_iff.1 h
  obtain ⟨b', -, rfl⟩ := Option.map_eq_some_iff.1 h
  exact b'.length_le

end TextBuffer

/-! ## Addresses -/

namespace Ipv4Addr

variable (a : Ipv4Addr)

/-- The parts of an address. -/
def part (j : ℕ) : ℕ := (a.data[j]?.getD 0).toNat

theorem part_eq {j : ℕ} (hj : j < 4) : a.part j = a.data[j].toNat := by
  rw [part, Vector.getElem?_eq_getElem hj, Option.getD_some]

theorem part_lt (j : ℕ) : a.part j < 2 ^ 8 := UInt8.toNat_lt _

theorem writeLoop_eq {i : ℕ} (hi : i < 4) (b : TextBuffer 15) (hroom : b.text.length + 4 * i + 3 ≤ 15) :
    ((a.writeLoop i b).bind fun out => (out.putNumber 10 3 a.data[0].toNat).map TextBuffer.text) =
      some (b.text ++ partsText 10 (ch '.') a.part i) := by
  have hlt : ∀ d : Byte, d.toNat < 10 ^ 3 := fun d => (UInt8.toNat_lt d).trans (by decide)
  induction i generalizing b with
  | zero =>
    obtain ⟨b', hput, htext, -⟩ := b.putNumber_eq (by decide) (by decide) (hlt a.data[0]) (by omega)
    rw [writeLoop, Option.bind_some, hput, Option.map_some, htext, partsText, part_eq a hi]
  | succ i ih =>
    obtain ⟨b', hput, htext, hlen⟩ :=
      b.putNumber_append_eq (by decide) (by decide) (hlt a.data[i + 1]) (by omega) (ch '.')
    have hloop : a.writeLoop (i + 1) b = a.writeLoop i b' := by
      rw [writeLoop, Vector.getElem?_eq_getElem hi, Option.bind_some, ← Option.bind_assoc, hput,
        Option.bind_some]
    rw [hloop, ih (by omega) b' (by omega), htext, partsText, part_eq a hi]
    simp

theorem toString_eq : a.toString = some (partsText 10 (ch '.') a.part 3) :=
  a.writeLoop_eq (by decide) .empty (by decide)

theorem parse_text : parse (partsText 10 (ch '.') a.part 3) = some (some a) := by
  obtain ⟨values, hparse, hvalues⟩ := parseParts_partTexts (show 1 < 10 by decide) (by decide) UInt8.ofNat
    a.part_lt (show 3 < 4 by decide) (.replicate 4 0)
  rw [parse, splitString_partsText (by decide) (by decide) (by decide), hparse, Option.map_some, Option.map_some]
  congr 3
  ext j hj
  rw [hvalues j hj, if_pos (by omega), part_eq a hj, UInt8.ofNat_toNat]

end Ipv4Addr

namespace Ipv6Addr

variable (a : Ipv6Addr)

/-- The parts of an address. -/
def part (k : ℕ) : ℕ := (hexit (a.data[2 * k + 1]?.getD 0) (a.data[2 * k]?.getD 0)).toNat

theorem part_eq {k : ℕ} (hk : k < 8) : a.part k = (hexit a.data[2 * k + 1] a.data[2 * k]).toNat := by
  rw [part, Vector.getElem?_eq_getElem (by omega), Vector.getElem?_eq_getElem (by omega), Option.getD_some,
    Option.getD_some]

theorem part_lt (k : ℕ) : a.part k < 2 ^ 16 := UInt16.toNat_lt _

theorem writeLoop_eq {k : ℕ} (hk : k < 8) (b : TextBuffer 39) (hroom : b.text.length + 5 * k + 4 ≤ 39) :
    ((a.writeLoop (2 * k + 1) b).bind fun out =>
        (out.putNumber 16 4 (hexit a.data[1] a.data[0]).toNat).map TextBuffer.text) =
      some (b.text ++ partsText 16 (ch ':') a.part k) := by
  have hlt : ∀ d : UInt16, d.toNat < 16 ^ 4 := UInt16.toNat_lt
  induction k generalizing b with
  | zero =>
    obtain ⟨b', hput, htext, -⟩ :=
      b.putNumber_eq (by decide) (by decide) (hlt (hexit a.data[1] a.data[0])) (by omega)
    have hloop : a.writeLoop (2 * 0 + 1) b = some b := rfl
    rw [hloop, Option.bind_some, hput, Option.map_some, htext, partsText, part_eq a hk]
  | succ k ih =>
    obtain ⟨b', hput, htext, hlen⟩ := b.putNumber_append_eq (by decide) (by decide)
      (hlt (hexit a.data[2 * k + 3] a.data[2 * k + 2])) (by omega) (ch ':')
    have hloop : a.writeLoop (2 * (k + 1) + 1) b = a.writeLoop (2 * k + 1) b' := by
      rw [show 2 * (k + 1) + 1 = 2 * k + 1 + 2 from rfl, writeLoop, Vector.getElem?_eq_getElem (by omega),
        Option.bind_some, Vector.getElem?_eq_getElem (by omega), Option.bind_some, ← Option.bind_assoc, hput,
        Option.bind_some]
    rw [hloop, ih (by omega) b' (by omega), htext, partsText, part_eq a hk]
    simp [Nat.mul_add]

theorem toString_eq : a.toString = some (partsText 16 (ch ':') a.part 7) :=
  a.writeLoop_eq (show 7 < 8 by decide) .empty (by decide)

/-- The two bytes of a part. -/
theorem hexit_bytes (lo hi : Byte) : ((hexit lo hi) >>> 8).toUInt8 = hi ∧ (hexit lo hi).toUInt8 = lo := by
  have hlo := lo.toNat_lt
  have hhi := hi.toNat_lt
  have hvalue : (hexit lo hi).toNat = hi.toNat * 2 ^ 8 + lo.toNat := by
    rw [hexit, UInt16.toNat_or, UInt16.toNat_shiftLeft, UInt8.toNat_toUInt16, UInt8.toNat_toUInt16, Nat.or_comm]
    change hi.toNat <<< 8 % 2 ^ 16 ||| lo.toNat = _
    rw [Nat.mod_eq_of_lt (by rw [Nat.shiftLeft_eq]; omega), ← Nat.shiftLeft_add_eq_or_of_lt hlo, Nat.shiftLeft_eq]
  constructor
  · rw [← UInt8.toNat_inj, UInt16.toNat_toUInt8, UInt16.toNat_shiftRight, hvalue]
    change ((hi.toNat * 2 ^ 8 + lo.toNat) >>> 8) % 2 ^ 8 = _
    rw [Nat.shiftRight_eq_div_pow]
    omega
  · rw [← UInt8.toNat_inj, UInt16.toNat_toUInt8, hvalue]
    omega

theorem parse_text : parse (partsText 16 (ch ':') a.part 7) = some (some a) := by
  obtain ⟨values, hparse, hvalues⟩ := parseParts_partTexts (show 1 < 16 by decide) (by decide) UInt16.ofNat
    a.part_lt (show 7 < 8 by decide) (.replicate 8 0)
  rw [parse, splitString_partsText (by decide) (by decide) (by decide), hparse, Option.map_some, Option.map_some]
  congr 2
  have hpart : ∀ k (hk : k < 8), values[k] = hexit a.data[2 * k + 1] a.data[2 * k] := by
    intro k hk
    rw [hvalues k hk, if_pos (by omega), part_eq a hk, UInt16.ofNat_toNat]
  obtain ⟨data⟩ := a
  rw [ofParts, mk.injEq]
  refine Vector.ext fun j hj => ?_
  interval_cases j <;> simp [hpart, hexit_bytes]

end Ipv6Addr

/-- The separator is in a text of at least two parts. -/
theorem find_partsText {base : ℕ} {sep : Byte} {part : ℕ → ℕ} (hbase : 1 < base) (hbase' : base ≤ 16)
    (hsep : digit base sep = none) (i : ℕ) : (find (partsText base sep part (i + 1)) sep 0).isSome := by
  rw [partsText, find_zero_eq_some _ (not_mem_numeral hbase hbase' hsep _)]
  rfl

/-- `to_string` fits into its buffer, and each of the `parse` functions reads it back. -/
theorem parse_toString :
    (∀ a : Ipv4Addr, ∃ s, a.toString = some s ∧ s.length ≤ 15 ∧ Ipv4Addr.parse s = some (some a) ∧
      IpAddr.parse s = some (some (.ipv4 a))) ∧
    ∀ b : Ipv6Addr, ∃ s, b.toString = some s ∧ s.length ≤ 39 ∧ Ipv6Addr.parse s = some (some b) ∧
      IpAddr.parse s = some (some (.ipv6 b)) := by
  constructor
  · intro a
    refine ⟨_, a.toString_eq, TextBuffer.length_le_of_bind_map a.toString_eq, a.parse_text, ?_⟩
    -- Without a colon, it is not even tried as an IPv6 address.
    have hcolon : find (partsText 10 (ch '.') a.part 3) (ch ':') 0 = none :=
      find_zero_eq_none (not_mem_partsText (by decide) (by decide) (by decide) (by decide) 3)
    rw [IpAddr.parse, hcolon, if_neg (by simp), Option.bind_some,
      if_pos (find_partsText (by decide) (by decide) (by decide) 2), a.parse_text]
    rfl
  · intro b
    refine ⟨_, b.toString_eq, TextBuffer.length_le_of_bind_map b.toString_eq, b.parse_text, ?_⟩
    rw [IpAddr.parse, if_pos (find_partsText (by decide) (by decide) (by decide) 6), b.parse_text,
      Option.bind_some]

end Cppnet
