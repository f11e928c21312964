import Cppnet.Ip.Order
import Cppnet.Ip.RoundTrip

/-!
# What is taken for an address

An address has as many parts as its kind says, each a numeral of a number that fits into it (`IsFull`).
`parse` asks of a part that it starts with such a number (`StartsWithNumber`), and not how many parts there
are: the elements of missing ones stay zero, and one too many is stored in front of the others.

* `parse_exact_iff`: the texts of which exactly the addresses are taken for some;
* `parse_classified_iff`: the addresses that are what their text says, the bytes of which are in the
  opposite order.
-/

namespace Cppnet

open Lib Util

/-- A text starts with the digits of a number of `w` bits. -/
structure StartsWithNumber (w base : ℕ) (part : Bytes) : Prop where
  digits_ne_nil : digits base part ≠ []
  lt : numeralValue base (digits base part) < 2 ^ w

/-- A text is the digits of a number of `w` bits. -/
structure IsNumber (w base : ℕ) (part : Bytes) (n : ℕ) : Prop where
  ne_nil : part ≠ []
  isDigit : ∀ c ∈ part, (digit base c).isSome
  value : numeralValue base (digits base part) = n
  lt : n < 2 ^ w

/-- An address in full: `n` numbers of `w` bits with separators between them. -/
def IsFull (w base : ℕ) (sep : Byte) (n : ℕ) (s : Bytes) : Prop :=
  ∃ parts : List Bytes, parts.length = n ∧ s = [sep].intercalate parts ∧
    ∀ part ∈ parts, ∃ v, IsNumber w base part v

section Numbers

variable {w base : ℕ} {part : Bytes}

theorem fromChars_cases (w base : ℕ) (part : Bytes) :
    (StartsWithNumber w base part ∧ fromChars w base part = .ok (numeralValue base (digits base part))) ∨
      (¬StartsWithNumber w base part ∧ ∃ e, fromChars w base part = .error e) := by
  rw [fromChars]
  split_ifs with hnil hlt
  · exact .inr ⟨fun h => h.digits_ne_nil hnil, _, rfl⟩
  · exact .inl ⟨⟨hnil, hlt⟩, rfl⟩
  · exact .inr ⟨fun h => hlt h.lt, _, rfl⟩

/-- Numbers are what starts with one and is nothing but digits. -/
theorem exists_isNumber_iff :
    (∃ v, IsNumber w base part v) ↔
      StartsWithNumber w base part ∧ ∀ c ∈ part, (digit base c).isSome := by
  constructor
  · rintro ⟨v, h⟩
    refine ⟨⟨?_, h.value.symm ▸ h.lt⟩, h.isDigit⟩
    obtain ⟨c, rest, rfl⟩ := List.exists_cons_of_ne_nil h.ne_nil
    obtain ⟨d, hd⟩ := Option.isSome_iff_exists.1 (h.isDigit c List.mem_cons_self)
    rw [digits_cons hd]
    exact List.cons_ne_nil _ _
  · rintro ⟨hstarts, hdigits⟩
    refine ⟨_, ?_, hdigits, rfl, hstarts.lt⟩
    rintro rfl
    exact hstarts.digits_ne_nil rfl

theorem IsNumber.fromChars_eq {v : ℕ} (h : IsNumber w base part v) : fromChars w base part = .ok v := by
  rcases fromChars_cases w base part with ⟨-, heq⟩ | ⟨hnot, -⟩
  · rw [heq, h.value]
  · exact absurd (exists_isNumber_iff.1 ⟨v, h⟩).1 hnot

theorem IsNumber.not_mem {v : ℕ} (h : IsNumber w base part v) {c : Byte} (hc : digit base c = none) :
    c ∉ part := by
  intro hmem
  have hsome := h.isDigit c hmem
  rw [hc] at hsome
  cases hsome

/-- The parts of an address in full are those between its separators. -/
theorem isFull_iff {sep : Byte} (hsep : digit base sep = none) {n : ℕ} (hn : 0 < n) (s : Bytes) :
    IsFull w base sep n s ↔ (s.splitOn sep).length = n ∧
      ∀ part ∈ s.splitOn sep, StartsWithNumber w base part ∧ ∀ c ∈ part, (digit base c).isSome := by
  constructor
  · rintro ⟨parts, hlen, rfl, hparts⟩
    have hsplit : ([sep].intercalate parts).splitOn sep = parts := by
      refine List.splitOn_intercalate sep (fun part hpart => ?_) (List.ne_nil_of_length_pos (by omega))
      obtain ⟨v, hv⟩ := hparts part hpart
      exact hv.not_mem hsep
    rw [hsplit]
    exact ⟨hlen, fun part hpart => exists_isNumber_iff.1 (hparts part hpart)⟩
  · rintro ⟨hlen, hparts⟩
    exact ⟨_, hlen, (List.intercalate_splitOn sep).symm, fun part hpart =>
      exists_isNumber_iff.2 (hparts part hpart)⟩

end Numbers

/-! ## The texts that are taken -/

section Parts

variable {α : Type*} {n w base : ℕ} {ofNat : ℕ → α}

/-- The loop, with `it` elements left: it gives up at a part that does not start with a number, and stores
    outside if none of the first `it + 1` does that. -/
theorem parseParts_cases (parts : List Bytes) (values : Vector α n) {it : ℕ} (hit : it ≤ n) :
    ((∃ part ∈ parts.take (it + 1), ¬StartsWithNumber w base part) ∧
        parseParts w base ofNat parts values it = some none) ∨
      (∀ part ∈ parts.take (it + 1), StartsWithNumber w base part) ∧
        (it < parts.length ∧ parseParts w base ofNat parts values it = none ∨
          parts.length ≤ it ∧ ∃ values', parseParts w base ofNat parts values it = some (some values')) := by
  induction parts generalizing values it with
  | nil => exact .inr ⟨nofun, .inr ⟨Nat.zero_le _, values, rfl⟩⟩
  | cons part parts ih =>
    rw [List.take_succ_cons]
    rcases fromChars_cases w base part with ⟨hstarts, heq⟩ | ⟨hnot, e, heq⟩
    · cases it with
      | zero =>
        refine .inr ⟨?_, .inl ⟨Nat.zero_lt_succ _, ?_⟩⟩
        · rw [List.take_zero, List.forall_mem_singleton]
          exact hstarts
        · simp only [parseParts, heq]
      | succ it =>
        have hstep : parseParts w base ofNat (part :: parts) values (it + 1) = parseParts w base ofNat parts
            (values.set it (ofNat (numeralValue base (digits base part))) hit) it := by
          simp only [parseParts, heq]
          exact dif_pos hit
        rw [hstep, List.length_cons, List.exists_mem_cons_iff, List.forall_mem_cons]
        rcases ih (values.set it _ hit) (Nat.le_of_succ_le hit) with
          ⟨hbad, hnone⟩ | ⟨hgood, ⟨hlt, hout⟩ | ⟨hle, hsome⟩⟩
        · exact .inl ⟨.inr hbad, hnone⟩
        · exact .inr ⟨⟨hstarts, hgood⟩, .inl ⟨Nat.succ_lt_succ hlt, hout⟩⟩
        · exact .inr ⟨⟨hstarts, hgood⟩, .inr ⟨Nat.succ_le_succ hle, hsome⟩⟩
    · refine .inl ⟨⟨part, List.mem_cons_self, hnot⟩, ?_⟩
      simp only [parseParts, heq]

/-- The texts of which the loop takes exactly the addresses. -/
theorem parseParts_exact_iff {β : Type*} {sep : Byte} (hsep : digit base sep = none) (hn : 0 < n)
    (s : Bytes) (values : Vector α n) (addr : Vector α n → β) :
    (∃ o, ((parseParts w base ofNat (splitString s sep 0) values n).map fun values => values.map addr) =
        some o ∧ (o.isSome ↔ IsFull w base sep n s)) ↔
      ((∀ part ∈ (s.splitOn sep).take (n + 1), StartsWithNumber w base part) →
        (s.splitOn sep).length = n ∧ ∀ part ∈ s.splitOn sep, ∀ c ∈ part, (digit base c).isSome) := by
  rw [splitString_eq _ _ (Nat.zero_le _), List.drop_zero, isFull_iff hsep hn]
  rcases parseParts_cases (s.splitOn sep) values le_rfl with
    ⟨⟨part, hpart, hbad⟩, heq⟩ | ⟨hgood, ⟨hlt, heq⟩ | ⟨hle, values', heq⟩⟩
  · rw [heq]
    refine iff_of_true ⟨none, rfl, iff_of_false nofun fun h => ?_⟩ fun h => absurd (h part hpart) hbad
    exact hbad (h.2 part (List.mem_of_mem_take hpart)).1
  · rw [heq]
    refine iff_of_false ?_ fun h => ?_
    · rintro ⟨o, ho, -⟩
      cases ho
    · exact hlt.ne' (h hgood).1
  · rw [List.take_of_length_le (by omega)] at hgood ⊢
    rw [heq]
    constructor
    · rintro ⟨o, ho, hiff⟩ -
      cases ho
      obtain ⟨hlen, hparts⟩ := hiff.1 rfl
      exact ⟨hlen, fun part hpart => (hparts part hpart).2⟩
    · intro h
      obtain ⟨hlen, hdigits⟩ := h hgood
      exact ⟨_, rfl, iff_of_true rfl ⟨hlen, fun part hpart => ⟨hgood part hpart, hdigits part hpart⟩⟩⟩

end Parts

/-- What is taken is defined and exactly an address in full, if and only if the text has all the parts, and
    only digits in them, where the first of them, up to one too many, each start with a number. -/
theorem parse_exact_iff (s : Bytes) :
    ((∃ o, Ipv4Addr.parse s = some o ∧ (o.isSome ↔ IsFull 8 10 (ch '.') 4 s)) ↔
      ((∀ part ∈ (s.splitOn (ch '.')).take 5, StartsWithNumber 8 10 part) →
        (s.splitOn (ch '.')).length = 4 ∧ ∀ part ∈ s.splitOn (ch '.'), ∀ c ∈ part, (digit 10 c).isSome)) ∧
    ((∃ o, Ipv6Addr.parse s = some o ∧ (o.isSome ↔ IsFull 16 16 (ch ':') 8 s)) ↔
      ((∀ part ∈ (s.splitOn (ch ':')).take 9, StartsWithNumber 16 16 part) →
        (s.splitOn (ch ':')).length = 8 ∧
          ∀ part ∈ s.splitOn (ch ':'), ∀ c ∈ part, (digit 16 c).isSome)) :=
  ⟨parseParts_exact_iff (by decide) (by decide) s _ _, parseParts_exact_iff (by decide) (by decide) s _ _⟩

/-- Two parts are an address, and so are four with something behind a number; five are stored outside of it. -/
theorem parse_not_exact :
    Ipv4Addr.parse (sv "1.2") = some (some ⟨#v[0, 0, 2, 1]⟩) ∧ ¬IsFull 8 10 (ch '.') 4 (sv "1.2") ∧
    Ipv4Addr.parse (sv "1.2.3.4x") = some (some ⟨#v[4, 3, 2, 1]⟩) ∧
    ¬IsFull 8 10 (ch '.') 4 (sv "1.2.3.4x") ∧
    Ipv4Addr.parse (sv "1.2.3.4.5") = none ∧ Ipv6Addr.parse (sv "1:2:3:4:5:6:7:8:9") = none := by
  refine ⟨by decide +kernel, ?_, by decide +kernel, ?_, by decide +kernel, by decide +kernel⟩
  · rw [isFull_iff (by decide) (by decide)]
    exact fun h => absurd h.1 (by decide +kernel)
  · rw [isFull_iff (by decide) (by decide)]
    intro h
    have hlast := (h.2 (sv "4x") (by decide +kernel)).2 (ch 'x') (by decide)
    exact absurd hlast (by decide)

/-! ## The bytes of an address -/

namespace Ipv4Addr

variable {p q r t : Bytes} {a b c d : ℕ}

/-- What the text of an address, with the parts `a`, `b`, `c` and `d`, says of it. -/
structure Classified (x : Ipv4Addr) (a b c d : ℕ) : Prop where
  isLoopback : x.isLoopback ↔ a = 127
  isPrivateNetwork : x.isPrivateNetwork ↔ a = 10 ∨ (a = 172 ∧ 16 ≤ b ∧ b ≤ 31) ∨ (a = 192 ∧ b = 168)
  toUInt32 : x.toUInt32.toNat = a * 2 ^ 24 + b * 2 ^ 16 + c * 2 ^ 8 + d

/-- The first part becomes the last byte. -/
theorem parse_quad (hp : IsNumber 8 10 p a) (hq : IsNumber 8 10 q b) (hr : IsNumber 8 10 r c)
    (ht : IsNumber 8 10 t d) :
    parse (p ++ ch '.' :: (q ++ ch '.' :: (r ++ ch '.' :: t))) =
      some (some ⟨#v[UInt8.ofNat d, UInt8.ofNat c, UInt8.ofNat b, UInt8.ofNat a]⟩) := by
  have hdot : digit 10 (ch '.') = none := by decide
  rw [parse, splitString_eq _ _ (Nat.zero_le _), List.drop_zero,
    List.splitOn_append_cons_self_of_not_mem (hp.not_mem hdot),
    List.splitOn_append_cons_self_of_not_mem (hq.not_mem hdot),
    List.splitOn_append_cons_self_of_not_mem (hr.not_mem hdot),
    List.splitOn_eq_singleton (ht.not_mem hdot),
    parseParts_cons hp.fromChars_eq (by decide), parseParts_cons hq.fromChars_eq (by decide),
    parseParts_cons hr.fromChars_eq (by decide), parseParts_cons ht.fromChars_eq (by decide)]
  rfl

theorem toNat_toUInt32 (d₀ d₁ d₂ d₃ : Byte) : (toUInt32 ⟨#v[d₀, d₁, d₂, d₃]⟩).toNat =
    d₀.toNat * 2 ^ 24 + d₁.toNat * 2 ^ 16 + d₂.toNat * 2 ^ 8 + d₃.toNat := by
  rw [toNat_toUInt32_eq_value]
  change Bits.value 8 [d₀.toNat, d₁.toNat, d₂.toNat, d₃.toNat] = _
  simp only [Bits.value_cons, Bits.value_nil, List.length_cons, List.length_nil]
  omega

/-- The second byte of the private networks of `172`. -/
theorem and_f0_eq_iff (y : Byte) : y &&& 0xf0 = 0x10 ↔ 16 ≤ y.toNat ∧ y.toNat ≤ 31 := by
  revert y
  refine forall_byte ?_
  decide +kernel

/-- An address is what its text says, if and only if this is the same in both directions. -/
theorem parse_classified_iff (hp : IsNumber 8 10 p a) (hq : IsNumber 8 10 q b) (hr : IsNumber 8 10 r c)
    (ht : IsNumber 8 10 t d) :
    (∃ x, parse (p ++ ch '.' :: (q ++ ch '.' :: (r ++ ch '.' :: t))) = some (some x) ∧
      x.Classified a b c d) ↔ a = d ∧ b = c := by
  have ha := hp.lt
  have hb := hq.lt
  have hc := hr.lt
  have hd := ht.lt
  let x : Ipv4Addr := ⟨#v[UInt8.ofNat d, UInt8.ofNat c, UInt8.ofNat b, UInt8.ofNat a]⟩
  have hparse : parse (p ++ ch '.' :: (q ++ ch '.' :: (r ++ ch '.' :: t))) = some (some x) :=
    parse_quad hp hq hr ht
  have hx : x.toUInt32.toNat = d * 2 ^ 24 + c * 2 ^ 16 + b * 2 ^ 8 + a := by
    rw [toNat_toUInt32, UInt8.toNat_ofNat_of_lt' ha, UInt8.toNat_ofNat_of_lt' hb, UInt8.toNat_ofNat_of_lt' hc,
      UInt8.toNat_ofNat_of_lt' hd]
  have hbyte : ∀ {m : ℕ} (n : Byte), m < 2 ^ 8 → (UInt8.ofNat m = n ↔ m = n.toNat) := by
    intro m n hm
    rw [← UInt8.toNat_inj, UInt8.toNat_ofNat_of_lt' hm]
  constructor
  · rintro ⟨y, hy, hclass⟩
    cases hparse.symm.trans hy
    have heq := hx.symm.trans hclass.toUInt32
    omega
  · rintro ⟨rfl, rfl⟩
    refine ⟨x, hparse, ?_, ?_, by rw [hx]⟩
    · rw [isLoopback, beq_iff_eq]
      exact hbyte 127 ha
    · rw [isPrivateNetwork, Bool.or_eq_true, Bool.or_eq_true, Bool.and_eq_true, Bool.and_eq_true, beq_iff_eq,
        beq_iff_eq, beq_iff_eq, beq_iff_eq, beq_iff_eq, and_f0_eq_iff, or_assoc]
      change UInt8.ofNat a = 10 ∨ UInt8.ofNat a = 172 ∧ 16 ≤ (UInt8.ofNat b).toNat ∧
        (UInt8.ofNat b).toNat ≤ 31 ∨ UInt8.ofNat a = 192 ∧ UInt8.ofNat b = 168 ↔ _
      rw [hbyte 10 ha, hbyte 172 ha, hbyte 192 ha, hbyte 168 hb, UInt8.toNat_ofNat_of_lt' hb]
      rfl

/-- An address that is the same in both directions. -/
theorem parse_classified_iff_palindrome :
    IsNumber 8 10 (sv "10") 10 ∧ IsNumber 8 10 (sv "0") 0 ∧
      ∃ x, parse (sv "10" ++ ch '.' :: (sv "0" ++ ch '.' :: (sv "0" ++ ch '.' :: sv "10"))) =
        some (some x) ∧ x.Classified 10 0 0 10 := by
  have hten : IsNumber 8 10 (sv "10") 10 := ⟨by decide, by decide, by decide, by decide⟩
  have hzero : IsNumber 8 10 (sv "0") 0 := ⟨by decide, by decide, by decide, by decide⟩
  exact ⟨hten, hzero, (parse_classified_iff hten hzero hzero hten).2 ⟨rfl, rfl⟩⟩

/-- The address of the loopback is not taken for it, nor is `10.1.2.3` for one of a private network. -/
theorem parse_not_classified :
    (∃ x, parse (sv "127.0.0.1") = some (some x) ∧ ¬x.Classified 127 0 0 1 ∧ x.isLoopback = false ∧
      x.toUInt32 = 0x0100007f) ∧
    ∃ x, parse (sv "10.1.2.3") = some (some x) ∧ ¬x.Classified 10 1 2 3 ∧ x.isPrivateNetwork = false := by
  refine ⟨⟨⟨#v[1, 0, 0, 127]⟩, by decide +kernel, fun h => ?_, by decide, by decide⟩,
    ⟨⟨#v[3, 2, 1, 10]⟩, by decide +kernel, fun h => ?_, by decide⟩⟩
  · exact absurd (h.isLoopback.2 rfl) (by decide)
  · exact absurd (h.isPrivateNetwork.2 (.inl rfl)) (by decide)

end Ipv4Addr

end Cppnet
