import Cppnet.Io.Basic
import Mathlib.Algebra.GroupWithZero.Nat
import Mathlib.Data.List.Basic

/-!
# Strings

What the library uses of `std::string_view` and of `<charconv>`, on lists of
bytes: searches from a position (`find`, `findFirstOf`), `substr`, and the
numerals read by `std::from_chars` and written by `std::to_string`.

A search is described by where it stops (`findFirst_eq_some`,
`findFirst_eq_none`) in a text given as what is before the position, what is
passed over, and what is found.
-/

namespace Cppnet

/-- The byte of an ASCII character. -/
def ch (c : Char) : Byte := UInt8.ofNat c.toNat

/-- The bytes of an ASCII literal. -/
def sv (s : String) : Bytes := s.toList.map ch

/-- The end of a line, `\r\n`. -/
def crlf : Bytes := [13, 10]

theorem crlf_ne_nil : crlf ≠ [] := List.cons_ne_nil _ _

/-- An end of line in a text of two parts is in one of them, or across. -/
theorem crlf_append_iff {a b : Bytes} :
    crlf <:+: a ++ b ↔ crlf <:+: a ∨ crlf <:+: b ∨ [13] <:+ a ∧ [10] <+: b := by
  rw [List.infix_append_iff_ne_nil]
  refine or_congr_right (or_congr_right ⟨?_, fun h => ?_⟩)
  · rintro ⟨l₁, l₂, h₁, h₂, hl, ha, hb⟩
    obtain ⟨x, l₁, rfl⟩ := List.exists_cons_of_ne_nil h₁
    obtain ⟨y, l₂, rfl⟩ := List.exists_cons_of_ne_nil h₂
    rcases l₁ with _ | ⟨z, l₁⟩
    · cases hl
      exact ⟨ha, hb⟩
    · have := congrArg List.length hl
      simp [crlf] at this
  · exact ⟨[13], [10], List.cons_ne_nil _ _, List.cons_ne_nil _ _, rfl, h.1, h.2⟩

/-- No end of line without a line feed. -/
theorem not_crlf_of_not_mem {s : Bytes} (h : 10 ∉ s) : ¬crlf <:+: s :=
  fun hs => h (hs.subset (by decide))

/-! ## Searches -/

/-- The first position from `pos` on of a byte with the property `p`. -/
def findFirst (p : Byte → Bool) (s : Bytes) (pos : ℕ) : Option ℕ :=
  ((s.drop pos).findIdx? p).map (pos + ·)

/-- `find` of a byte, from a position on. -/
def find (s : Bytes) (c : Byte) (pos : ℕ) : Option ℕ := findFirst (· == c) s pos

/-- `find_first_of`, from a position on. -/
def findFirstOf (s set : Bytes) (pos : ℕ) : Option ℕ := findFirst (set.contains ·) s pos

/-- `find_first_not_of`. -/
def findFirstNotOf (s set : Bytes) : Option ℕ := findFirst (fun b => !set.contains b) s 0

/-- `find_last_not_of`. -/
def findLastNotOf (s set : Bytes) : Option ℕ :=
  (findFirstNotOf s.reverse set).map (s.length - 1 - ·)

/-- `substr`: at most `n` bytes from `pos` on, for a `pos` up to the length. -/
def substr (s : Bytes) (pos n : ℕ) : Bytes := (s.drop pos).take n

section Search

variable {p : Byte → Bool} {a : Bytes} {c : Byte}

theorem findFirst_eq_some (pre rest : Bytes) (ha : ∀ b ∈ a, p b = false) (hc : p c = true) :
    findFirst p (pre ++ (a ++ c :: rest)) pre.length = some (pre.length + a.length) := by
  have hidx : (a ++ c :: rest).findIdx? p = some a.length := by
    rw [List.findIdx?_append, List.findIdx?_eq_none_iff.2 (by simpa using ha), Option.none_or,
      List.findIdx?_cons, if_pos hc]
    simp
  rw [findFirst, List.drop_left, hidx, Option.map_some]

theorem findFirst_eq_none (pre : Bytes) (ha : ∀ b ∈ a, p b = false) :
    findFirst p (pre ++ a) pre.length = none := by
  rw [findFirst, List.drop_left, List.findIdx?_eq_none_iff.2 (by simpa using ha), Option.map_none]

/-- What a search finds: nothing from the position on, or the first byte from there on. -/
theorem findFirst_cases (p : Byte → Bool) (s : Bytes) (pos : ℕ) :
    (findFirst p s pos = none ∧ ∀ b ∈ s.drop pos, p b = false) ∨
      ∃ pre c rest, s = pre ++ c :: rest ∧ findFirst p s pos = some pre.length ∧
        pos ≤ pre.length ∧ p c = true ∧ ∀ b ∈ pre.drop pos, p b = false := by
  cases hfind : (s.drop pos).find? p with
  | none =>
    have hnone : ∀ b ∈ s.drop pos, p b = false := by simpa using List.find?_eq_none.1 hfind
    refine .inl ⟨?_, hnone⟩
    rw [findFirst, List.findIdx?_eq_none_iff.2 (by simpa using hnone), Option.map_none]
  | some c =>
    obtain ⟨hc, a, rest, hdrop, ha⟩ := List.find?_eq_some_iff_append.1 hfind
    have ha : ∀ b ∈ a, p b = false := by simpa using ha
    have hlen : (s.take pos).length = pos := by
      have := congrArg List.length hdrop
      simp only [List.length_drop, List.length_append, List.length_cons] at this
      rw [List.length_take]
      omega
    have hs : s = s.take pos ++ (a ++ c :: rest) := by rw [← hdrop, List.take_append_drop]
    refine .inr ⟨s.take pos ++ a, c, rest, by rw [List.append_assoc, ← hs], ?_, ?_, hc, ?_⟩
    · have h := findFirst_eq_some (s.take pos) rest ha hc
      rwa [← hs, hlen, ← hlen, ← List.length_append, hlen] at h
    · rw [List.length_append]
      omega
    · rwa [List.drop_left' hlen]

theorem find_eq_some (pre rest : Bytes) (ha : c ∉ a) :
    find (pre ++ (a ++ c :: rest)) c pre.length = some (pre.length + a.length) := by
  refine findFirst_eq_some pre rest (fun b hb => ?_) (beq_self_eq_true c)
  exact beq_false_of_ne fun h => ha (h ▸ hb)

theorem find_eq_none (pre : Bytes) (ha : c ∉ a) : find (pre ++ a) c pre.length = none :=
  findFirst_eq_none pre fun _ hb => beq_false_of_ne fun h => ha (h ▸ hb)

/-- A search from the start. -/
theorem find_zero_eq_some (rest : Bytes) (ha : c ∉ a) :
    find (a ++ c :: rest) c 0 = some a.length := by
  simpa using find_eq_some [] rest ha

theorem find_zero_eq_none (ha : c ∉ a) : find a c 0 = none := find_eq_none [] ha

/-- What is before the first of a byte. -/
theorem eq_of_append_cons_eq {b rest rest' : Bytes} (h : a ++ c :: rest = b ++ c :: rest')
    (ha : c ∉ a) (hb : c ∉ b) : a = b := by
  have hfind := find_zero_eq_some rest ha
  rw [h, find_zero_eq_some rest' hb] at hfind
  exact List.append_inj_left h (Option.some.inj hfind).symm

/-- Either the byte is not there, or it is found behind a part without it. -/
theorem find_zero_cases (s : Bytes) (c : Byte) :
    (c ∉ s ∧ find s c 0 = none) ∨
      ∃ a rest, s = a ++ c :: rest ∧ c ∉ a ∧ find s c 0 = some a.length := by
  by_cases hc : c ∈ s
  · obtain ⟨a, rest, rfl, ha⟩ := List.eq_append_cons_of_mem hc
    exact .inr ⟨a, rest, rfl, ha, find_zero_eq_some rest ha⟩
  · exact .inl ⟨hc, find_zero_eq_none hc⟩

@[simp] theorem substr_append (pre a rest : Bytes) :
    substr (pre ++ (a ++ rest)) pre.length a.length = a := by
  rw [substr, List.drop_left, List.take_left]

/-- What is behind a byte. -/
theorem drop_append_cons {α : Type*} (a : List α) (c : α) (rest : List α) :
    (a ++ c :: rest).drop (a.length + 1) = rest := by
  rw [List.drop_length_add_append, List.drop_one, List.tail_cons]

/-- A search from behind a byte on. -/
theorem find_append_cons (pre : Bytes) (c' : Byte) (rest : Bytes) (ha : c ∉ a) :
    find (pre ++ c' :: (a ++ c :: rest)) c (pre.length + 1) = some (pre.length + 1 + a.length) := by
  simpa using find_eq_some (pre ++ [c']) rest ha

theorem substr_append_cons (pre : Bytes) (c : Byte) (rest : Bytes) (n : ℕ) :
    substr (pre ++ c :: rest) (pre.length + 1) n = rest.take n := by
  rw [substr, drop_append_cons]

end Search

/-! ## Numerals -/

/-- The value of a digit in a base up to 36. -/
def digit (base : ℕ) (c : Byte) : Option ℕ :=
  let v := if ch '0' ≤ c ∧ c ≤ ch '9' then some (c - ch '0').toNat
    else if ch 'a' ≤ c ∧ c ≤ ch 'z' then some ((c - ch 'a').toNat + 10)
    else if ch 'A' ≤ c ∧ c ≤ ch 'Z' then some ((c - ch 'A').toNat + 10)
    else none
  v.filter (· < base)

/-- What holds of the bytes up to 255 holds of all. -/
theorem forall_byte {p : Byte → Prop} (h : ∀ n < 256, p (UInt8.ofNat n)) (c : Byte) : p c := by
  have hc := h c.toNat (UInt8.toNat_lt c)
  rwa [UInt8.ofNat_toNat] at hc

/-- The decimal digits. -/
theorem digit_ten (c : Byte) :
    digit 10 c = if ch '0' ≤ c ∧ c ≤ ch '9' then some (c - ch '0').toNat else none := by
  revert c
  refine forall_byte ?_
  decide +kernel

/-- The values of the digits a string starts with. -/
def digits (base : ℕ) : Bytes → List ℕ
  | [] => []
  | c :: s =>
    match digit base c with
    | some d => d :: digits base s
    | none => []

/-- The value of a numeral, most significant digit first. -/
def numeralValue (base : ℕ) (ds : List ℕ) : ℕ := ds.foldl (fun v d => base * v + d) 0

/-- `std::from_chars` into an unsigned integer of `w` bits: the value of the
    digits the string starts with, whatever is behind them. -/
def fromChars (w base : ℕ) (s : Bytes) : Except Errc ℕ :=
  let ds := digits base s
  if ds = [] then .error .invalidArgument
  else if numeralValue base ds < 2 ^ w then .ok (numeralValue base ds)
  else .error .resultOutOfRange

/-- `std::to_string` of an unsigned integer. -/
def toString (n : ℕ) : Bytes := (Nat.toDigits 10 n).map ch

/-- The digits of a number, in lower case. -/
def numeral (base n : ℕ) : Bytes := (Nat.toDigits base n).map ch

/-- `std::to_chars` of an unsigned integer, into `size` characters. -/
def toChars (base size n : ℕ) : Except Errc Bytes :=
  if (numeral base n).length ≤ size then .ok (numeral base n) else .error .valueTooLarge

/-- A non-empty string of decimal digits. -/
def IsNumeral (s : Bytes) : Prop := s ≠ [] ∧ ∀ c ∈ s, (digit 10 c).isSome

instance (s : Bytes) : Decidable (IsNumeral s) := inferInstanceAs (Decidable (_ ∧ _))

section Numerals

variable {base : ℕ} {s rest : Bytes}

theorem digits_cons {c : Byte} {d : ℕ} (hd : digit base c = some d) :
    digits base (c :: s) = d :: digits base s := by
  rw [digits, hd]

theorem digits_digits_append (hs : ∀ c ∈ s, (digit base c).isSome) :
    digits base (s ++ rest) = digits base s ++ digits base rest := by
  induction s with
  | nil => rfl
  | cons c s ih =>
    obtain ⟨d, hd⟩ := Option.isSome_iff_exists.1 (hs c List.mem_cons_self)
    rw [List.cons_append, digits_cons hd, digits_cons hd, List.cons_append,
      ih fun b hb => hs b (List.mem_cons_of_mem c hb)]

/-- Reading stops behind the last digit. -/
theorem digits_append (hs : ∀ c ∈ s, (digit base c).isSome)
    (hrest : ∀ c ∈ rest.head?, digit base c = none) : digits base (s ++ rest) = digits base s := by
  have hnil : digits base rest = [] := by
    cases rest with
    | nil => rfl
    | cons c rest => rw [digits, hrest c rfl]
  rw [digits_digits_append hs, hnil, List.append_nil]

theorem digits_ne_nil (hs : IsNumeral s) : digits 10 s ≠ [] := by
  obtain ⟨hne, hs⟩ := hs
  obtain ⟨c, s, rfl⟩ := List.exists_cons_of_ne_nil hne
  obtain ⟨d, hd⟩ := Option.isSome_iff_exists.1 (hs c List.mem_cons_self)
  rw [digits, hd]
  exact List.cons_ne_nil _ _

/-- A numeral has nothing but digits. -/
theorem IsNumeral.not_mem (hs : IsNumeral s) {c : Byte} (hc : digit 10 c = none) : c ∉ s := by
  intro h
  have := hs.2 c h
  rw [hc] at this
  cases this

/-- Reading a numeral with something behind it that is not a digit. -/
theorem fromChars_append {w : ℕ} (hs : IsNumeral s) (hw : numeralValue 10 (digits 10 s) < 2 ^ w)
    (hrest : ∀ c ∈ rest.head?, digit 10 c = none) :
    fromChars w 10 (s ++ rest) = .ok (numeralValue 10 (digits 10 s)) := by
  simp only [fromChars, digits_append hs.2 hrest, if_neg (digits_ne_nil hs), if_pos hw]

theorem fromChars_numeral {w : ℕ} (hs : IsNumeral s) (hw : numeralValue 10 (digits 10 s) < 2 ^ w) :
    fromChars w 10 s = .ok (numeralValue 10 (digits 10 s)) := by
  have h₀ : ∀ c ∈ ([] : Bytes).head?, digit 10 c = none := by simp
  have h := fromChars_append hs hw h₀
  rwa [List.append_nil] at h

theorem numeral_ne_nil (n : ℕ) : numeral base n ≠ [] := by
  rw [numeral, ne_eq, List.map_eq_nil_iff]
  exact Nat.toDigits_ne_nil

section Written

variable (hbase : 1 < base) (hbase' : base ≤ 16)

include hbase'

theorem digit_digitChar {d : ℕ} (hd : d < base) : digit base (ch d.digitChar) = some d := by
  have hvalue : ∀ d < 16, digit 16 (ch d.digitChar) = some d := by decide
  have h := hvalue d (by omega)
  simp only [digit, Option.filter_eq_some_iff] at h ⊢
  exact ⟨h.1, by simpa using hd⟩

include hbase

/-- What is written are digits, and their value is the number. -/
theorem numeral_spec (n : ℕ) : (∀ c ∈ numeral base n, (digit base c).isSome) ∧
    numeralValue base (digits base (numeral base n)) = n := by
  induction n using Nat.strongRecOn with
  | ind n ih =>
    have hlast : digit base (ch (n % base).digitChar) = some (n % base) :=
      digit_digitChar hbase' (Nat.mod_lt n (by omega))
    by_cases hn : n < base
    · rw [Nat.mod_eq_of_lt hn] at hlast
      rw [numeral, Nat.toDigits_of_lt_base hn]
      simp [hlast, digits_cons hlast, digits, numeralValue]
    · -- The last digit is behind those of the quotient.
      obtain ⟨hdigits, hvalue⟩ := ih (n / base) (Nat.div_lt_self (by omega) hbase)
      have hnumeral : numeral base n = numeral base (n / base) ++ [ch (n % base).digitChar] := by
        rw [numeral, Nat.toDigits_of_base_le hbase (by omega), List.map_append]
        rfl
      rw [numeralValue] at hvalue
      rw [hnumeral, digits_digits_append hdigits, digits_cons hlast, numeralValue, List.foldl_append, hvalue]
      refine ⟨fun c hc => ?_, Nat.div_add_mod n base⟩
      rcases List.mem_append.1 hc with hc | hc
      · exact hdigits c hc
      · rw [List.mem_singleton.1 hc, hlast]
        rfl

/-- Reading back the digits of a number. -/
theorem fromChars_numeral_eq {w n : ℕ} (hn : n < 2 ^ w) : fromChars w base (numeral base n) = .ok n := by
  obtain ⟨hdigits, hvalue⟩ := numeral_spec hbase hbase' n
  have hne : digits base (numeral base n) ≠ [] := by
    obtain ⟨c, s, hcons⟩ := List.exists_cons_of_ne_nil (numeral_ne_nil n)
    rw [hcons] at hdigits ⊢
    obtain ⟨d, hd⟩ := Option.isSome_iff_exists.1 (hdigits c List.mem_cons_self)
    rw [digits_cons hd]
    exact List.cons_ne_nil _ _
  simp only [fromChars, if_neg hne, hvalue, if_pos hn]

end Written

/-- What is written is a numeral. -/
theorem isNumeral_toString (n : ℕ) : IsNumeral (toString n) :=
  ⟨numeral_ne_nil n, (numeral_spec (by decide) (by decide) n).1⟩

/-- The value of what is written. -/
theorem numeralValue_toString (n : ℕ) : numeralValue 10 (digits 10 (toString n)) = n :=
  (numeral_spec (by decide) (by decide) n).2

/-- Reading back what was written. -/
theorem fromChars_toString {w n : ℕ} (hn : n < 2 ^ w) : fromChars w 10 (toString n) = .ok n :=
  fromChars_numeral_eq (by decide) (by decide) hn

end Numerals

end Cppnet
