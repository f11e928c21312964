import Cppnet.Url.Escapes
import Mathlib.Data.List.Chain

/-!
# Percent-encoding

`url::encode` replaces the reserved characters of a string, one by one, by `%` and the two digits
of their value. Each time, it goes on with the string behind the character, but searches it only from
the position the character was found at: a reserved character is missed if there is less in front
of it, behind the one before it, than there was in front of that one.

So `encode` is the percent-encoding (`percentEncode`) if and only if the gaps between the
reserved characters do not get shorter (`encode_iff`), and only then the string can be decoded from
it without regard to what it is.
-/

namespace Cppnet.Url

open Lib

/-- `reserved_characters`. -/
def reservedCharacters : Bytes := sv "!#$%&'()*+,/:;=?@[]"

/-- `std::to_chars` of a 7-bit character in base 16, into a buffer of two (all the default reserved
    characters are 7-bit). -/
def hexBuf (c : Byte) : Bytes := resize 0 ((Nat.toDigits 16 c.toNat).map ch) 2

/-- The loop of `encode`, with what is written so far. -/
def encodeLoop (reserved : Bytes) : ℕ → Bytes → Bytes → ℕ → Option Bytes
  | 0, _, _, _ => none
  | fuel + 1, out, str, idx =>
    match findFirstOf str reserved idx with
    | none => some (out ++ str)
    | some idx =>
      encodeLoop reserved fuel (out ++ str.take idx ++ ch '%' :: hexBuf (str.getD idx 0))
        (str.drop (idx + 1)) idx

/-- `encode`. -/
def encode (str : Bytes) (reserved : Bytes := reservedCharacters) : Option Bytes :=
  encodeLoop reserved (str.length + 1) [] str 0

/-! ## Percent-encoding -/

/-- A hexadecimal digit, in lower case. -/
def hexDigit (n : ℕ) : Byte := if n < 10 then ch '0' + UInt8.ofNat n else ch 'a' + UInt8.ofNat (n - 10)

/-- One character, percent-encoded if it is reserved. -/
def percentEncodeChar (reserved : Bytes) (c : Byte) : Bytes :=
  if c ∈ reserved then [ch '%', hexDigit (c.toNat / 16), hexDigit (c.toNat % 16)] else [c]

/-- The percent-encoding of a string. -/
def percentEncode (reserved s : Bytes) : Bytes := s.flatMap (percentEncodeChar reserved)

/-- The lengths of the gaps in front of the reserved characters, of which `n` characters are
    already passed. -/
def gapsFrom (reserved : Bytes) : ℕ → Bytes → List ℕ
  | _, [] => []
  | n, c :: s => if c ∈ reserved then n :: gapsFrom reserved 0 s else gapsFrom reserved (n + 1) s

/-- The lengths of the gaps in front of the reserved characters. -/
def gaps (reserved s : Bytes) : List ℕ := gapsFrom reserved 0 s

section Encode

variable {reserved a rest : Bytes} {c : Byte}

theorem percentEncode_append (a b : Bytes) :
    percentEncode reserved (a ++ b) = percentEncode reserved a ++ percentEncode reserved b :=
  List.flatMap_append

theorem percentEncode_of_not_reserved (ha : ∀ b ∈ a, b ∉ reserved) : percentEncode reserved a = a := by
  induction a with
  | nil => rfl
  | cons b a ih =>
    rw [List.forall_mem_cons] at ha
    rw [percentEncode, List.flatMap_cons, percentEncodeChar, if_neg ha.1]
    exact congrArg (b :: ·) (ih ha.2)

theorem percentEncode_cons (c : Byte) (s : Bytes) :
    percentEncode reserved (c :: s) = percentEncodeChar reserved c ++ percentEncode reserved s :=
  List.flatMap_cons

/-- Encoding does not make a string shorter. -/
theorem length_le_percentEncode (reserved s : Bytes) :
    s.length ≤ (percentEncode reserved s).length := by
  induction s with
  | nil => exact le_rfl
  | cons c s ih =>
    have hchar : 1 ≤ (percentEncodeChar reserved c).length := by
      rw [percentEncodeChar]
      split <;> simp
    rw [percentEncode_cons, List.length_append, List.length_cons]
    omega

/-- Encoding makes a string longer, if there is something to encode. -/
theorem length_lt_percentEncode (hc : c ∈ reserved) {s : Bytes} (hs : c ∈ s) :
    s.length < (percentEncode reserved s).length := by
  obtain ⟨a, b, rfl⟩ := List.append_of_mem hs
  have ha := length_le_percentEncode reserved a
  have hb := length_le_percentEncode reserved b
  rw [percentEncode_append, percentEncode_cons, percentEncodeChar, if_pos hc]
  simp only [List.length_append, List.length_cons, List.length_nil]
  omega

theorem gapsFrom_of_not_reserved (ha : ∀ b ∈ a, b ∉ reserved) (n : ℕ) : gapsFrom reserved n a = [] := by
  induction a generalizing n with
  | nil => rfl
  | cons b a ih =>
    rw [List.forall_mem_cons] at ha
    rw [gapsFrom, if_neg ha.1, ih ha.2]

/-- The first gap. -/
theorem gapsFrom_append (ha : ∀ b ∈ a, b ∉ reserved) (hc : c ∈ reserved) (n : ℕ) (rest : Bytes) :
    gapsFrom reserved n (a ++ c :: rest) = (n + a.length) :: gaps reserved rest := by
  induction a generalizing n with
  | nil =>
    rw [List.nil_append, gapsFrom, if_pos hc]
    rfl
  | cons b a ih =>
    rw [List.forall_mem_cons] at ha
    rw [List.cons_append, gapsFrom, if_neg ha.1, ih ha.2, List.length_cons]
    congr 1
    omega

/-- Either nothing is reserved, or there is a first gap. -/
theorem reserved_cases (reserved s : Bytes) :
    (∀ b ∈ s, b ∉ reserved) ∨
      ∃ a c rest, s = a ++ c :: rest ∧ (∀ b ∈ a, b ∉ reserved) ∧ c ∈ reserved := by
  rcases findFirst_cases (reserved.contains ·) s 0 with ⟨-, h⟩ | ⟨a, c, rest, rfl, -, -, hc, ha⟩
  · exact .inl (by simpa using h)
  · exact .inr ⟨a, c, rest, rfl, by simpa using ha, by simpa using hc⟩

/-- A reserved character that is not found from a position on is in front of it. -/
theorem length_lt_of_drop (hc : c ∈ reserved) {idx : ℕ}
    (h : ∀ b ∈ (a ++ c :: rest).drop idx, reserved.contains b = false) : a.length < idx := by
  by_contra hle
  refine absurd (h c ?_) (by simpa using hc)
  rw [List.drop_append_of_le_length (Nat.not_lt.1 hle)]
  simp

/-- The loop encodes what it finds, which is all there is if and only if no gap is shorter than the
    one before it. -/
theorem encodeLoop_spec
    (hbuf : ∀ c ∈ reserved, hexBuf c = [hexDigit (c.toNat / 16), hexDigit (c.toNat % 16)])
    {fuel : ℕ} {str : Bytes} (hfuel : str.length < fuel) (out : Bytes) (idx : ℕ) :
    ∃ result, encodeLoop reserved fuel out str idx = some result ∧
      (List.IsChain (· ≤ ·) (idx :: gaps reserved str) → result = out ++ percentEncode reserved str) ∧
      (¬List.IsChain (· ≤ ·) (idx :: gaps reserved str) →
        result.length < out.length + (percentEncode reserved str).length) := by
  induction fuel generalizing str out idx with
  | zero => exact absurd hfuel (Nat.not_lt_zero _)
  | succ fuel ih =>
    rw [encodeLoop]
    rcases findFirst_cases (reserved.contains ·) str idx with
      ⟨hfind, hnone⟩ | ⟨pre, c, rest, rfl, hfind, hidx, hc, hpre⟩
    · rw [findFirstOf, hfind]
      refine ⟨_, rfl, ?_⟩
      rcases reserved_cases reserved str with hstr | ⟨a, c, rest, rfl, ha, hc⟩
      · rw [gaps, gapsFrom_of_not_reserved hstr, percentEncode_of_not_reserved hstr]
        exact ⟨fun _ => rfl, fun h => absurd (.singleton _) h⟩
      · -- a reserved character in front of the position the search starts at
        have hlt := length_lt_of_drop hc hnone
        rw [gaps, gapsFrom_append ha hc, Nat.zero_add, List.isChain_cons_cons]
        refine ⟨fun h => absurd h.1 (Nat.not_le.2 hlt), fun _ => ?_⟩
        rw [List.length_append]
        exact Nat.add_lt_add_left (length_lt_percentEncode hc (by simp)) _
    · have hc : c ∈ reserved := by simpa using hc
      have hchar : (pre ++ c :: rest).getD pre.length 0 = c := by simp
      rw [findFirstOf, hfind]
      dsimp only
      rw [hchar, List.take_left, drop_append_cons, hbuf c hc]
      rw [List.length_append, List.length_cons] at hfuel
      obtain ⟨result, hloop, hgood, hbad⟩ := ih (show rest.length < fuel by omega)
        (out ++ pre ++ ch '%' :: [hexDigit (c.toNat / 16), hexDigit (c.toNat % 16)]) pre.length
      refine ⟨result, hloop, ?_⟩
      have hchar' : percentEncodeChar reserved c =
          ch '%' :: [hexDigit (c.toNat / 16), hexDigit (c.toNat % 16)] := if_pos hc
      rw [percentEncode_append, percentEncode_cons, hchar']
      rcases reserved_cases reserved pre with hstr | ⟨a, c', rest', rfl, ha, hc'⟩
      · rw [gaps, gapsFrom_append hstr hc, Nat.zero_add, List.isChain_cons_cons,
          percentEncode_of_not_reserved hstr]
        refine ⟨fun h => ?_, fun h => ?_⟩
        · rw [hgood h.2]
          simp only [List.append_assoc]
        · have := hbad fun hchain => h ⟨hidx, hchain⟩
          simp only [List.length_append] at this ⊢
          omega
      · -- a reserved character in front of the position the search starts at
        have hlt := length_lt_of_drop hc' hpre
        rw [List.append_assoc, List.cons_append, gaps, gapsFrom_append ha hc', Nat.zero_add,
          List.isChain_cons_cons]
        refine ⟨fun h => absurd h.1 (Nat.not_le.2 hlt), fun _ => ?_⟩
        have hle : result.length ≤ (out ++ (a ++ c' :: rest') ++
            ch '%' :: [hexDigit (c.toNat / 16), hexDigit (c.toNat % 16)]).length +
            (percentEncode reserved rest).length := by
          by_cases hchain : List.IsChain (· ≤ ·) ((a ++ c' :: rest').length :: gaps reserved rest)
          · rw [hgood hchain, List.length_append]
          · exact (hbad hchain).le
        have hlonger := length_lt_percentEncode hc' (s := a ++ c' :: rest') (by simp)
        simp only [List.length_append] at hle hlonger ⊢
        omega

/-! ## Decoding -/

/-- The two digits of a character are read back. -/
theorem escapedByte_hexDigit (c : Byte) :
    (digit 16 (hexDigit (c.toNat / 16))).isSome ∧ (digit 16 (hexDigit (c.toNat % 16))).isSome ∧
      escapedByte (hexDigit (c.toNat / 16)) (hexDigit (c.toNat % 16)) = c := by
  revert c
  refine forall_byte ?_
  decide +kernel

/-- The percent-encoding of a string is made of escapes and of characters that stand for themselves,
    if `%` is reserved. -/
theorem escaped_percentEncode (hpercent : ch '%' ∈ reserved) (s : Bytes) :
    Escaped (percentEncode reserved s) ∧ percentDecode (percentEncode reserved s) = s := by
  induction s with
  | nil => exact ⟨trivial, rfl⟩
  | cons c s ih =>
    rw [percentEncode_cons, percentEncodeChar]
    split_ifs with hc
    · obtain ⟨hhi, hlo, hbyte⟩ := escapedByte_hexDigit c
      have hne : ∀ d : Byte, (digit 16 d).isSome → d ≠ ch '%' := by
        rintro d hd rfl
        exact absurd hd (by decide)
      refine ⟨⟨fun _ => ⟨by simp, ?_⟩, fun h => absurd h (hne _ hhi), fun h => absurd h (hne _ hlo), ih.1⟩,
        ?_⟩
      · intro d hd
        simp only [List.append_eq, List.cons_append, List.nil_append, List.take_succ_cons, List.take_zero,
          List.mem_cons, List.not_mem_nil, or_false] at hd
        rcases hd with rfl | rfl
        · exact hhi
        · exact hlo
      · have h := percentDecode_append (a := []) List.not_mem_nil (hexDigit (c.toNat / 16))
          (hexDigit (c.toNat % 16)) (percentEncode reserved s)
        rw [hbyte, ih.2] at h
        exact h
    · have hne : c ≠ ch '%' := fun h => hc (h ▸ hpercent)
      exact ⟨⟨fun h => absurd h hne, ih.1⟩, (percentDecode_cons hne _).trans (congrArg (c :: ·) ih.2)⟩

end Encode

/-- The default reserved characters have two digits each. -/
theorem hexBuf_reservedCharacters : ∀ c ∈ reservedCharacters,
    hexBuf c = [hexDigit (c.toNat / 16), hexDigit (c.toNat % 16)] := by
  decide

/-- `encode` with the default reserved characters is the percent-encoding of the string, which is
    decoded to the string, if and only if no gap in front of a reserved character is shorter
    than the one in front of the reserved character before it. -/
theorem encode_iff (s : Bytes) :
    encode s = some (percentEncode reservedCharacters s) ∧ (encode s).bind decode = some s ↔
      (gaps reservedCharacters s).IsChain (· ≤ ·) := by
  obtain ⟨result, hencode, hgood, hbad⟩ :=
    encodeLoop_spec hexBuf_reservedCharacters (Nat.lt_succ_self s.length) [] 0
  have hchain : List.IsChain (· ≤ ·) (0 :: gaps reservedCharacters s) ↔
      (gaps reservedCharacters s).IsChain (· ≤ ·) := by
    cases gaps reservedCharacters s with
    | nil => simp
    | cons gap gaps => simp [List.isChain_cons_cons]
  rw [hchain] at hgood hbad
  change encode s = some result at hencode
  rw [hencode]
  constructor
  · intro h
    by_contra hnot
    have hlt := hbad hnot
    rw [Option.some.inj h.1, List.length_nil, Nat.zero_add] at hlt
    exact lt_irrefl _ hlt
  · intro h
    have hresult := hgood h
    rw [List.nil_append] at hresult
    subst hresult
    obtain ⟨hescaped, hdecode⟩ := escaped_percentEncode (show ch '%' ∈ reservedCharacters by decide) s
    rw [Option.bind_some, decode_eq hescaped, hdecode]
    exact ⟨rfl, rfl⟩

/-- The second `/` has one character in front of it, the first has two. -/
theorem encode_shorter_gap :
    encode (sv "ab/c/d") = some (sv "ab%2fc/d") ∧
      percentEncode reservedCharacters (sv "ab/c/d") = sv "ab%2fc%2fd" ∧
      ¬∀ s, encode s = some (percentEncode reservedCharacters s) ∧ (encode s).bind decode = some s := by
  refine ⟨by decide, by decide, fun h => ?_⟩
  exact absurd (h (sv "ab/c/d")).1 (by decide)

end Cppnet.Url
