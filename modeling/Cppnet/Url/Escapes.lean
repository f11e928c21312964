import Cppnet.Url.Basic

/-!
# Percent-decoding

If every `%` of a text is followed by two hexadecimal digits, `url::decode` replaces each of
these by the byte with this value, and leaves everything else as it is (`decode_eq`).

As the delimiters of a url are no hexadecimal digits, a text with this property can be cut at any
of them (`Escaped.of_append_cons`).
-/

namespace Cppnet.Url

open Lib

/-- Every `%` is followed by two hexadecimal digits. -/
def Escaped : Bytes → Prop
  | [] => True
  | c :: s =>
    (c = ch '%' → 2 ≤ s.length ∧ ∀ d ∈ s.take 2, (digit 16 d).isSome) ∧ Escaped s

instance decidableEscaped : (s : Bytes) → Decidable (Escaped s)
  | [] => .isTrue trivial
  | _ :: s => @instDecidableAnd _ _ _ (decidableEscaped s)

/-- The byte with the digits `hi` and `lo`. -/
def escapedByte (hi lo : Byte) : Byte :=
  UInt8.ofNat (16 * (digit 16 hi).getD 0 + (digit 16 lo).getD 0)

/-- The text with its escapes replaced. -/
def percentDecode : Bytes → Bytes
  | c :: hi :: lo :: s =>
    if c = ch '%' then escapedByte hi lo :: percentDecode s else c :: percentDecode (hi :: lo :: s)
  | s => s

section Escapes

variable {a b s : Bytes} {c : Byte}

theorem Escaped.of_not_mem (h : ch '%' ∉ s) : Escaped s := by
  induction s with
  | nil => trivial
  | cons c s ih =>
    rw [List.mem_cons, not_or] at h
    exact ⟨fun hc => absurd hc.symm h.1, ih h.2⟩

theorem Escaped.tail (h : Escaped (c :: s)) : Escaped s := h.2

/-- Behind a part of a text. -/
theorem Escaped.of_append (h : Escaped (a ++ b)) : Escaped b := by
  induction a with
  | nil => exact h
  | cons c a ih => exact ih h.tail

/-- A text is cut at a byte that is no hexadecimal digit. -/
theorem Escaped.of_append_cons (hc : digit 16 c = none) (h : Escaped (a ++ c :: b)) :
    Escaped a ∧ Escaped b := by
  refine ⟨?_, h.of_append.tail⟩
  induction a with
  | nil => trivial
  | cons x a ih =>
    rw [List.cons_append] at h
    refine ⟨fun hx => ?_, ih h.tail⟩
    obtain ⟨-, hdigits⟩ := h.1 hx
    have hnot : ∀ {l : Bytes}, c ∉ (l ++ c :: b).take 2 → 2 ≤ l.length := by
      intro l hl
      by_contra hlt
      refine hl ?_
      rcases l with _ | ⟨y, _ | ⟨z, l⟩⟩
      · simp
      · simp
      · simp at hlt
    have hlen : 2 ≤ a.length := hnot fun hmem => by
      have := hdigits c hmem
      rw [hc] at this
      cases this
    rw [List.take_append_of_le_length hlen] at hdigits
    exact ⟨hlen, hdigits⟩

/-- An escape: two hexadecimal digits behind the `%`. -/
theorem Escaped.exists_digits (h : Escaped (ch '%' :: s)) :
    ∃ hi lo rest, s = hi :: lo :: rest ∧ (digit 16 hi).isSome ∧ (digit 16 lo).isSome ∧ Escaped rest := by
  obtain ⟨hlen, hdigits⟩ := h.1 rfl
  rcases s with _ | ⟨hi, _ | ⟨lo, rest⟩⟩
  · simp at hlen
  · simp at hlen
  · exact ⟨hi, lo, rest, rfl, hdigits hi (by simp), hdigits lo (by simp), h.tail.tail.tail⟩

theorem percentDecode_cons (hc : c ≠ ch '%') (s : Bytes) : percentDecode (c :: s) = c :: percentDecode s := by
  rcases s with _ | ⟨hi, _ | ⟨lo, s⟩⟩
  · rfl
  · rfl
  · rw [percentDecode, if_neg hc]

/-- What is in front of an escape is left as it is. -/
theorem percentDecode_append (ha : ch '%' ∉ a) (hi lo : Byte) (rest : Bytes) :
    percentDecode (a ++ ch '%' :: hi :: lo :: rest) = a ++ escapedByte hi lo :: percentDecode rest := by
  induction a with
  | nil => rw [List.nil_append, percentDecode, if_pos rfl, List.nil_append]
  | cons x a ih =>
    rw [List.mem_cons, not_or] at ha
    rw [List.cons_append, percentDecode_cons fun h => ha.1 h.symm, ih ha.2, List.cons_append]

/-- Nothing is replaced without a `%`. -/
theorem percentDecode_of_not_mem (h : ch '%' ∉ s) : percentDecode s = s := by
  induction s with
  | nil => rfl
  | cons c s ih =>
    rw [List.mem_cons, not_or] at h
    rw [percentDecode_cons fun hc => h.1 hc.symm, ih h.2]

theorem digit_lt {base d : ℕ} (h : digit base c = some d) : d < base := by
  have := (Option.filter_eq_some_iff.1 h).2
  simpa using this

theorem fromChars_escape {hi lo : Byte} (hhi : (digit 16 hi).isSome) (hlo : (digit 16 lo).isSome) :
    ∃ v, fromChars 8 16 [hi, lo] = .ok v ∧ UInt8.ofNat v = escapedByte hi lo := by
  obtain ⟨x, hx⟩ := Option.isSome_iff_exists.1 hhi
  obtain ⟨y, hy⟩ := Option.isSome_iff_exists.1 hlo
  have hdigits : digits 16 [hi, lo] = [x, y] := by
    rw [digits_cons hx, digits_cons hy]
    rfl
  have hlt : numeralValue 16 [x, y] < 2 ^ 8 := by
    have hx' := digit_lt hx
    have hy' := digit_lt hy
    simp only [numeralValue, List.foldl_cons, List.foldl_nil]
    omega
  refine ⟨numeralValue 16 [x, y], ?_, ?_⟩
  · simp only [fromChars, hdigits, if_neg (List.cons_ne_nil _ _), if_pos hlt]
  · simp [escapedByte, hx, hy, numeralValue]

theorem substr_triple (a : Bytes) (hi lo : Byte) (rest : Bytes) :
    substr (a ++ ch '%' :: hi :: lo :: rest) (a.length + 1) 2 = [hi, lo] := by
  rw [substr_append_cons]
  rfl

theorem drop_triple (a : Bytes) (hi lo : Byte) (rest : Bytes) :
    (a ++ ch '%' :: hi :: lo :: rest).drop (a.length + 3) = rest := by
  rw [List.drop_length_add_append]
  rfl

theorem length_triple (a : Bytes) (hi lo : Byte) (rest : Bytes) :
    (a ++ ch '%' :: hi :: lo :: rest).length = a.length + 3 + rest.length := by
  rw [List.length_append, List.length_cons, List.length_cons, List.length_cons]
  omega

/-- The loop of `decode` on a text with escapes. -/
theorem decodeLoop_eq {fuel : ℕ} (hs : Escaped s) (hfuel : s.length < fuel) (out : Bytes) :
    decodeLoop fuel out s = some (out ++ percentDecode s) := by
  induction fuel generalizing s out with
  | zero => exact absurd hfuel (Nat.not_lt_zero _)
  | succ fuel ih =>
    rw [decodeLoop]
    rcases find_zero_cases s (ch '%') with ⟨hnot, hfind⟩ | ⟨a, t, rfl, ha, hfind⟩
    · rw [hfind, percentDecode_of_not_mem hnot]
    · obtain ⟨hi, lo, rest, rfl, hhi, hlo, hrest⟩ := hs.of_append.exists_digits
      obtain ⟨v, hv, hbyte⟩ := fromChars_escape hhi hlo
      have hlen := length_triple a hi lo rest
      rw [hfind]
      dsimp only
      rw [substr_triple, hv, drop_triple, if_pos (by omega), List.take_left, percentDecode_append ha]
      dsimp only
      rw [ih hrest (by omega), hbyte]
      simp

/-- `decode` of a text with escapes. -/
theorem decode_eq (hs : Escaped s) : decode s = some (percentDecode s) :=
  decodeLoop_eq hs (Nat.lt_succ_self _) []

end Escapes

end Cppnet.Url
