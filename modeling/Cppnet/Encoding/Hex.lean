import Cppnet.Bytes
import Cppnet.Lib.Loop
import Mathlib.Data.List.Induction

/-!
# Hexadecimal

`encoding/hex.cpp`: two characters for each byte, in upper case; in lower case, they are read
as well.

The characters are written one by one into a string that is there already (`Cells`). There is no
check that they are inside of it, so the positions are recorded: what a write outside does is
undefined, except that it is not to one of the characters of the string.
-/

namespace Cppnet.Hex

open Lib

/-! ## Writing -/

/-- A string that is written to by position, with the positions written to so far. -/
structure Cells where
  chars : Bytes
  written : List ℕ

namespace Cells

/-- A write to a position. -/
def put (s : Cells) (i : ℕ) (c : Byte) : Cells where
  chars := s.chars.set i c
  written := s.written ++ [i]

theorem mem_written_put {s : Cells} {i j : ℕ} {c : Byte} (hj : j ∈ s.written) :
    j ∈ (s.put i c).written :=
  List.mem_append_left _ hj

theorem self_mem_written_put (s : Cells) (i : ℕ) (c : Byte) : i ∈ (s.put i c).written :=
  List.mem_append_right _ (List.mem_singleton_self i)

/-- A write outside of a string. -/
theorem chars_put_of_le {s : Cells} {chars : Bytes} (h : s.chars = chars) {i : ℕ}
    (hi : chars.length ≤ i) (c : Byte) : (s.put i c).chars = chars := by
  rw [put, h, List.set_eq_of_length_le hi]

/-- A write to the character behind a part of a string. -/
theorem chars_put_append {s : Cells} {pre rest : Bytes} {c : Byte} (h : s.chars = pre ++ c :: rest)
    (c' : Byte) : (s.put pre.length c').chars = pre ++ c' :: rest := by
  rw [put, h]
  simp

end Cells

/-- A digit, as `encode` writes it. -/
def nibble (v : Byte) : Byte := if v < 0xA then v + ch '0' else v - 0xA + ch 'A'

/-- `encode` of a byte. -/
def encodeByte (b : Byte) : Byte × Byte := (nibble ((b &&& 0xF0) >>> 4), nibble (b &&& 0x0F))

/-- `encode_to` of a byte. -/
def encodeByteTo (b : Byte) (out : Cells) (offset : ℕ) : Cells :=
  (out.put offset (encodeByte b).1).put (offset + 1) (encodeByte b).2

/-- `encode_to`: the positions go up by two with every byte. -/
def encodeTo : Bytes → Cells → ℕ → Cells
  | [], out, _ => out
  | b :: data, out, offset => encodeTo data (encodeByteTo b out offset) (offset + 2)

/-- `encode`. -/
def encode (data : Bytes) : Bytes := (encodeTo data ⟨List.replicate (data.length * 2) 0, []⟩ 0).chars

/-! ## Reading -/

/-- `is_hex_char`. -/
def isHexChar (c : Byte) : Bool :=
  (ch '0' ≤ c && c ≤ ch '9') || (ch 'A' ≤ c && c ≤ ch 'F') || (ch 'a' ≤ c && c ≤ ch 'f')

/-- `ensure_uppercase`, where characters are signed. -/
def ensureUppercase (c : Byte) : Byte := if c.toInt8 > (ch 'F').toInt8 then c - (ch 'a' - ch 'A') else c

/-- `parse` of a digit, where characters are signed. -/
def parseDigit (c : Byte) : Byte := if c.toInt8 ≥ (ch 'A').toInt8 then c - ch 'A' + 0xA else c - ch '0'

/-- `decode` of two characters, whatever they are. -/
def decodeByte (hi lo : Byte) : Byte :=
  (parseDigit (ensureUppercase hi) <<< 4) ||| parseDigit (ensureUppercase lo)

/-- One turn of the loop of `decode_to`: a byte of the span, from its two characters. The counter has 32
    bits. -/
def decodeTurn (data : Bytes) (s : UInt32 × Bytes) : Option (Turn (UInt32 × Bytes) (Option Bytes)) :=
  if s.1.toNat < s.2.length then do
    let hi ← data[(s.1 * 2 + 0).toNat]?
    let lo ← data[(s.1 * 2 + 1).toNat]?
    if !isHexChar hi || !isHexChar lo then some (.done none)
    else some (.next (s.1 + 1, s.2.set s.1.toNat (decodeByte hi lo)))
  else some (.done (some s.2))

/-- `decode_to`, into the span `out`: `some none` where it returns false, and `none` where it reads outside
    of the characters, or goes on for ever, as its counter never gets to 2^32. -/
def decodeTo (data out : Bytes) : Option (Option Bytes) :=
  if data.length % 2 ≠ 0 ∨ out.length * 2 < data.length then some none
  else Loop.run (decodeTurn data) (out.length + 1) (0, out)

/-- `decode`. -/
def decode (data : Bytes) : Option (Option Bytes) :=
  if data.length % 2 ≠ 0 then some none else decodeTo data (List.replicate (data.length / 2) 0)

/-! ## The encoded text -/

/-- The characters of a byte. -/
def byteText (b : Byte) : Bytes := [(encodeByte b).1, (encodeByte b).2]

/-- The characters of bytes. -/
def text (data : Bytes) : Bytes := data.flatMap byteText

@[simp] theorem length_text (data : Bytes) : (text data).length = data.length * 2 := by
  induction data with
  | nil => rfl
  | cons b data ih =>
    rw [text, List.flatMap_cons, List.length_append, ← text, ih]
    simp only [byteText, List.length_cons, List.length_nil]
    omega

theorem text_cons (b : Byte) (data : Bytes) : text (b :: data) = byteText b ++ text data := rfl

/-- The characters of a byte are hexadecimal digits, which are read back. -/
theorem decodeByte_encodeByte (b : Byte) :
    isHexChar (encodeByte b).1 ∧ isHexChar (encodeByte b).2 ∧
      decodeByte (encodeByte b).1 (encodeByte b).2 = b := by
  revert b
  refine forall_byte ?_
  decide +kernel

/-- Writing over a part of a string. -/
theorem chars_encodeTo {data pre mid rest : Bytes} {out : Cells} (h : out.chars = pre ++ (mid ++ rest))
    (hmid : mid.length = data.length * 2) :
    (encodeTo data out pre.length).chars = pre ++ (text data ++ rest) := by
  induction data generalizing pre mid out with
  | nil => simpa [encodeTo, text, List.length_eq_zero_iff.1 hmid] using h
  | cons b data ih =>
    obtain ⟨x, y, mid, rfl⟩ : ∃ x y m, mid = x :: y :: m := by
      rcases mid with _ | ⟨x, _ | ⟨y, m⟩⟩
      · simp at hmid
      · simp at hmid
        omega
      · exact ⟨x, y, m, rfl⟩
    -- The characters of a byte are put one after the other.
    have hfirst : (out.put pre.length (encodeByte b).1).chars =
        (pre ++ [(encodeByte b).1]) ++ y :: (mid ++ rest) := by
      rw [Cells.chars_put_append h]
      simp
    have hboth : (encodeByteTo b out pre.length).chars = pre ++ byteText b ++ (mid ++ rest) := by
      have hsecond := Cells.chars_put_append hfirst (encodeByte b).2
      rw [List.length_append, List.length_singleton] at hsecond
      rw [encodeByteTo, hsecond, byteText]
      simp
    have hlen : pre.length + 2 = (pre ++ byteText b).length := by
      rw [List.length_append]
      rfl
    have hmid' : mid.length = data.length * 2 := by
      simp only [List.length_cons] at hmid
      omega
    rw [encodeTo, hlen, ih hboth hmid', text_cons]
    simp

/-- Writing outside of a string. -/
theorem chars_encodeTo_of_le {out : Cells} {chars : Bytes} (h : out.chars = chars) {offset : ℕ}
    (hoffset : chars.length ≤ offset) (data : Bytes) : (encodeTo data out offset).chars = chars := by
  induction data generalizing out offset with
  | nil => exact h
  | cons b data ih =>
    have hfirst := Cells.chars_put_of_le h hoffset (encodeByte b).1
    exact ih (Cells.chars_put_of_le hfirst (by omega) _) (by omega)

theorem mem_written_encodeTo {data : Bytes} {out : Cells} {offset i : ℕ} (h : i ∈ out.written) :
    i ∈ (encodeTo data out offset).written := by
  induction data generalizing out offset with
  | nil => exact h
  | cons b data ih => exact ih (Cells.mem_written_put (Cells.mem_written_put h))

theorem encode_eq (data : Bytes) : encode data = text data := by
  have h : (⟨List.replicate (data.length * 2) 0, []⟩ : Cells).chars =
      [] ++ (List.replicate (data.length * 2) 0 ++ []) := by
    simp
  have hchars := chars_encodeTo h (List.length_replicate)
  rwa [List.nil_append, List.append_nil] at hchars

/-! ## Digits -/

/-- A letter in upper case. -/
def toupper (c : Byte) : Byte := if ch 'a' ≤ c ∧ c ≤ ch 'z' then c - 32 else c

/-- The bytes that hexadecimal digits denote, two digits each. -/
inductive Denotes : Bytes → Bytes → Prop
  | nil : Denotes [] []
  | cons {hi lo b : Byte} {x y : ℕ} {s bytes : Bytes} (hhi : digit 16 hi = some x)
      (hlo : digit 16 lo = some y) (hb : b.toNat = 16 * x + y) (hs : Denotes s bytes) :
      Denotes (hi :: lo :: s) (b :: bytes)

/-- A character is taken for a digit if it is one, and its case does not matter. -/
theorem digit_cases (c : Byte) :
    (digit 16 c = none ∧ isHexChar c = false) ∨
      ∃ x < 16, digit 16 c = some x ∧ isHexChar c ∧ parseDigit (ensureUppercase c) = UInt8.ofNat x ∧
        nibble (UInt8.ofNat x) = toupper c := by
  revert c
  refine forall_byte ?_
  decide +kernel

theorem isHexChar_iff (c : Byte) : isHexChar c ↔ (digit 16 c).isSome := by
  rcases digit_cases c with ⟨hdigit, hchar⟩ | ⟨x, -, hdigit, hchar, -, -⟩
  · simp [hdigit, hchar]
  · simp [hdigit, hchar]

/-- The byte of two digits, and its characters. -/
theorem byte_of_nibbles {x y : ℕ} (hx : x < 16) (hy : y < 16) :
    ((UInt8.ofNat x <<< 4) ||| UInt8.ofNat y).toNat = 16 * x + y ∧
      encodeByte ((UInt8.ofNat x <<< 4) ||| UInt8.ofNat y) =
        (nibble (UInt8.ofNat x), nibble (UInt8.ofNat y)) := by
  have hall : ∀ x < 16, ∀ y < 16, ((UInt8.ofNat x <<< 4) ||| UInt8.ofNat y).toNat = 16 * x + y ∧
      encodeByte ((UInt8.ofNat x <<< 4) ||| UInt8.ofNat y) =
        (nibble (UInt8.ofNat x), nibble (UInt8.ofNat y)) := by
    decide +kernel
  exact hall x hx y hy

theorem decodeByte_digits {hi lo : Byte} {x y : ℕ} (hhi : digit 16 hi = some x) (hlo : digit 16 lo = some y) :
    (decodeByte hi lo).toNat = 16 * x + y ∧ byteText (decodeByte hi lo) = [toupper hi, toupper lo] := by
  rcases digit_cases hi with ⟨hnone, -⟩ | ⟨x', hx, hhi', -, hparse, hnibble⟩
  · cases hhi.symm.trans hnone
  rcases digit_cases lo with ⟨hnone, -⟩ | ⟨y', hy, hlo', -, hparse', hnibble'⟩
  · cases hlo.symm.trans hnone
  cases hhi.symm.trans hhi'
  cases hlo.symm.trans hlo'
  obtain ⟨hvalue, htext⟩ := byte_of_nibbles hx hy
  rw [decodeByte, hparse, hparse', byteText, htext, hnibble, hnibble']
  exact ⟨hvalue, rfl⟩

/-- A text denotes one string of bytes at most. -/
theorem Denotes.unique {s v v' : Bytes} (h : Denotes s v) (h' : Denotes s v') : v = v' := by
  induction h generalizing v' with
  | nil =>
    cases h'
    rfl
  | cons hhi hlo hb _ ih =>
    cases h' with
    | cons hhi' hlo' hb' hs' =>
      cases hhi.symm.trans hhi'
      cases hlo.symm.trans hlo'
      rw [UInt8.toNat_inj.1 (hb.trans hb'.symm), ih hs']

theorem Denotes.length_eq {s v : Bytes} (h : Denotes s v) : s.length = v.length * 2 := by
  induction h with
  | nil => rfl
  | cons _ _ _ _ ih =>
    simp only [List.length_cons, ih]
    omega

/-- What is denoted is encoded as the text, in upper case. -/
theorem Denotes.text_eq {s v : Bytes} (h : Denotes s v) : text v = s.map toupper := by
  induction h with
  | nil => rfl
  | @cons hi lo b x y s bytes hhi hlo hb _ ih =>
    obtain ⟨hvalue, htext⟩ := decodeByte_digits hhi hlo
    rw [UInt8.toNat_inj.1 (hb.trans hvalue.symm), text_cons, htext, ih]
    rfl

/-- Two more digits denote one more byte. -/
theorem Denotes.cons_of_isHexChar {hi lo : Byte} {s v : Bytes} (h : Denotes s v) (hhi : isHexChar hi)
    (hlo : isHexChar lo) : Denotes (hi :: lo :: s) (decodeByte hi lo :: v) := by
  obtain ⟨x, hx⟩ := Option.isSome_iff_exists.1 ((isHexChar_iff hi).1 hhi)
  obtain ⟨y, hy⟩ := Option.isSome_iff_exists.1 ((isHexChar_iff lo).1 hlo)
  exact .cons hx hy (decodeByte_digits hx hy).1 h

theorem Denotes.isHexChar {hi lo : Byte} {s v : Bytes} (h : Denotes (hi :: lo :: s) v) :
    Hex.isHexChar hi ∧ Hex.isHexChar lo := by
  cases h with
  | cons hhi hlo _ _ => exact ⟨(isHexChar_iff hi).2 (by rw [hhi]; rfl), (isHexChar_iff lo).2 (by rw [hlo]; rfl)⟩

/-- A text of an even number of hexadecimal digits denotes bytes. -/
theorem exists_denotes_iff {s : Bytes} :
    (∃ v, Denotes s v) ↔ s.length % 2 = 0 ∧ ∀ c ∈ s, (digit 16 c).isSome := by
  constructor
  · rintro ⟨v, h⟩
    induction h with
    | nil => simp
    | cons hhi hlo _ _ ih =>
      refine ⟨?_, ?_⟩
      · simp only [List.length_cons]
        omega
      · simpa [hhi, hlo] using ih.2
  · rintro ⟨hlen, hdigits⟩
    induction s using List.twoStepInduction with
    | nil => exact ⟨[], .nil⟩
    | singleton c => cases hlen
    | cons_cons hi lo s ih _ =>
      rw [List.forall_mem_cons, List.forall_mem_cons] at hdigits
      obtain ⟨hhi, hlo, hs⟩ := hdigits
      rw [List.length_cons, List.length_cons] at hlen
      obtain ⟨v, hv⟩ := ih (by omega) hs
      exact ⟨_ :: v, hv.cons_of_isHexChar ((isHexChar_iff hi).2 hhi) ((isHexChar_iff lo).2 hlo)⟩

/-- The text of bytes denotes them. -/
theorem denotes_text (data : Bytes) : Denotes (text data) data := by
  induction data with
  | nil => exact .nil
  | cons b data ih =>
    obtain ⟨hhi, hlo, hbyte⟩ := decodeByte_encodeByte b
    have hcons := ih.cons_of_isHexChar hhi hlo
    rwa [hbyte] at hcons

/-! ## The loop of `decode_to` -/

theorem toNat_counter {n : ℕ} (hn : n < 2 ^ 32) : (UInt32.ofNat n).toNat = n :=
  UInt32.toNat_ofNat'.trans (Nat.mod_eq_of_lt hn)

/-- A turn takes the two characters behind those of the bytes that were written. -/
theorem decodeTurn_pair {pre s w r : Bytes} {hi lo : Byte} (hpre : pre.length = w.length * 2) (hw : w.length < 2 ^ 31)
    (b : Byte) : decodeTurn (pre ++ hi :: lo :: s) (UInt32.ofNat w.length, w ++ b :: r) =
      if !isHexChar hi || !isHexChar lo then some (.done none)
      else some (.next (UInt32.ofNat (w ++ [decodeByte hi lo]).length, w ++ [decodeByte hi lo] ++ r)) := by
  have hcount := toNat_counter (show w.length < 2 ^ 32 by omega)
  have hfirst : (UInt32.ofNat w.length * 2 + 0).toNat = pre.length := by
    rw [UInt32.toNat_add, UInt32.toNat_mul, hcount]
    change (w.length * 2 % 2 ^ 32 + 0) % 2 ^ 32 = _
    omega
  have hsecond : (UInt32.ofNat w.length * 2 + 1).toNat = pre.length + 1 := by
    rw [UInt32.toNat_add, UInt32.toNat_mul, hcount]
    change (w.length * 2 % 2 ^ 32 + 1) % 2 ^ 32 = _
    omega
  have hchars : (pre ++ hi :: lo :: s)[pre.length]? = some hi ∧
      (pre ++ hi :: lo :: s)[pre.length + 1]? = some lo := by simp
  have hnext : UInt32.ofNat w.length + 1 = UInt32.ofNat (w ++ [decodeByte hi lo]).length := by
    rw [List.length_append, List.length_singleton, UInt32.ofNat_add]
    rfl
  rw [decodeTurn]
  dsimp only
  rw [if_pos (by rw [hcount]; simp), hfirst, hsecond, hchars.1, hchars.2, hnext, hcount]
  simp

/-- From the position of a byte on, the loop takes the digits that are left, if that is what they are. The
    counter gets to the end, as there are no more bytes than it counts two for each. -/
theorem run_decodeTurn {pre s w r : Bytes} (hpre : pre.length = w.length * 2) (hs : s.length = r.length * 2)
    (hlen : w.length + r.length ≤ 2 ^ 31) {fuel : ℕ} (hfuel : r.length < fuel) :
    ∃ o, Loop.run (decodeTurn (pre ++ s)) fuel (UInt32.ofNat w.length, w ++ r) = some o ∧
      (o = none → ¬∃ v, Denotes s v) ∧ ∀ v ∈ o, ∃ v', v = w ++ v' ∧ Denotes s v' := by
  induction r generalizing pre s w fuel with
  | nil =>
    obtain rfl : s = [] := List.length_eq_zero_iff.1 hs
    obtain ⟨fuel, rfl⟩ := Nat.exists_eq_succ_of_ne_zero (Nat.ne_zero_of_lt hfuel)
    refine ⟨some w, Loop.run_succ_done ?_, nofun, fun v hv => ?_⟩
    · rw [List.length_nil, Nat.add_zero] at hlen
      have hcount := toNat_counter (show w.length < 2 ^ 32 by omega)
      rw [decodeTurn, if_neg (by simp [hcount]), List.append_nil]
    · cases hv
      exact ⟨[], (List.append_nil w).symm, .nil⟩
  | cons b r ih =>
    obtain ⟨fuel, rfl⟩ := Nat.exists_eq_succ_of_ne_zero (Nat.ne_zero_of_lt hfuel)
    rw [List.length_cons] at hlen hs hfuel
    obtain ⟨hi, lo, s, rfl⟩ : ∃ hi lo s', s = hi :: lo :: s' := by
      rcases s with _ | ⟨hi, _ | ⟨lo, s⟩⟩
      · cases hs
      · rw [List.length_singleton] at hs
        omega
      · exact ⟨hi, lo, s, rfl⟩
    have hturn := @decodeTurn_pair pre s w r hi lo hpre (by omega) b
    by_cases hhex : isHexChar hi ∧ isHexChar lo
    · rw [hhex.1, hhex.2, if_neg (by simp)] at hturn
      have hsplit : pre ++ hi :: lo :: s = pre ++ [hi, lo] ++ s := by simp
      have hpre' : (pre ++ [hi, lo]).length = (w ++ [decodeByte hi lo]).length * 2 := by
        simp [hpre, Nat.add_mul]
      have hlen' : (w ++ [decodeByte hi lo]).length + r.length ≤ 2 ^ 31 := by
        rw [List.length_append, List.length_singleton]
        omega
      rw [List.length_cons, List.length_cons] at hs
      obtain ⟨o, hrun, hnone, hsome⟩ :=
        ih hpre' (by omega : s.length = r.length * 2) hlen' (Nat.lt_of_succ_lt_succ hfuel)
      rw [Loop.run_succ_next hturn, hsplit]
      refine ⟨o, hrun, fun ho => ?_, fun v hv => ?_⟩
      · rintro ⟨v, hv⟩
        cases hv with
        | cons _ _ _ hs' => exact hnone ho ⟨_, hs'⟩
      · obtain ⟨v', rfl, hv'⟩ := hsome v hv
        exact ⟨_ :: v', by simp, hv'.cons_of_isHexChar hhex.1 hhex.2⟩
    · refine ⟨none, Loop.run_succ_done ?_, fun _ => ?_, nofun⟩
      · rw [hturn, if_pos]
        simpa [Decidable.imp_iff_not_or] using hhex
      · rintro ⟨v, hv⟩
        exact hhex hv.isHexChar

/-- `decode_to`, into a span of one byte for each two characters: the bytes these denote. -/
theorem decodeTo_spec {s out : Bytes} (hs : s.length = out.length * 2) (hlen : out.length ≤ 2 ^ 31) :
    ∃ o, decodeTo s out = some o ∧ ∀ v, o = some v ↔ Denotes s v := by
  have hpre : ([] : Bytes).length = ([] : Bytes).length * 2 := rfl
  obtain ⟨o, hrun, hnone, hsome⟩ := run_decodeTurn hpre hs (by simpa using hlen) (Nat.lt_succ_self out.length)
  refine ⟨o, ?_, fun v => ⟨fun hv => ?_, fun hv => ?_⟩⟩
  · rw [decodeTo, if_neg (by omega)]
    exact hrun
  · obtain ⟨v', rfl, hv'⟩ := hsome v hv
    exact hv'
  · rcases o with _ | v'
    · exact absurd ⟨v, hv⟩ (hnone rfl)
    · obtain ⟨v'', hv', hdenotes⟩ := hsome v' rfl
      rw [hv', List.nil_append, hdenotes.unique hv]

theorem decodeTo_text (data : Bytes) {out : Bytes} (hout : out.length = data.length)
    (hlen : data.length ≤ 2 ^ 31) : decodeTo (text data) out = some (some data) := by
  have hs : (text data).length = out.length * 2 := by
    rw [length_text, hout]
  obtain ⟨o, ho, hiff⟩ := decodeTo_spec hs (hout ▸ hlen)
  rw [ho, (hiff data).2 (denotes_text data)]

/-- `decode` gives the bytes that the characters denote, if they do. -/
theorem decode_eq {s : Bytes} (hlen : s.length ≤ 2 ^ 32) :
    ∃ o, decode s = some o ∧ ∀ v, o = some v ↔ Denotes s v := by
  rw [decode]
  split
  · next hodd =>
    refine ⟨none, rfl, fun v => iff_of_false nofun fun hv => hodd ?_⟩
    rw [hv.length_eq]
    omega
  · next heven =>
    refine decodeTo_spec ?_ ?_ <;> rw [List.length_replicate]
    · omega
    · omega

/-- What is encoded is decoded again. What is decoded are the texts of an even number of hexadecimal digits,
    and they are those of the bytes, in upper case. -/
theorem decode_encode_upper (d s : Bytes) (hd : d.length ≤ 2 ^ 31) (hs : s.length ≤ 2 ^ 32) :
    decode (encode d) = some (some d) ∧
      ∃ o, decode s = some o ∧ (o.isSome ↔ s.length % 2 = 0 ∧ ∀ c ∈ s, (digit 16 c).isSome) ∧
        ∀ v ∈ o, encode v = s.map toupper := by
  constructor
  · rw [encode_eq]
    obtain ⟨o, ho, hiff⟩ := decode_eq (s := text d) (by rw [length_text]; omega)
    rw [ho, (hiff d).2 (denotes_text d)]
  · obtain ⟨o, ho, hiff⟩ := decode_eq hs
    refine ⟨o, ho, ?_, fun v hv => ?_⟩
    · rw [← exists_denotes_iff, Option.isSome_iff_exists]
      exact exists_congr hiff
    · rw [encode_eq]
      exact ((hiff v).1 hv).text_eq

/-- Two bytes, and a text in both cases. -/
theorem decode_encode_upper_two :
    decode (encode [0xca, 0xfe]) = some (some [0xca, 0xfe]) ∧
      ∃ o, decode (sv "cAFe") = some o ∧ ∀ v ∈ o, encode v = sv "CAFE" := by
  obtain ⟨hd, o, ho, -, hupper⟩ := decode_encode_upper [0xca, 0xfe] (sv "cAFe") (by decide) (by decide)
  exact ⟨hd, o, ho, fun v hv => (hupper v hv).trans (by decide)⟩

end Cppnet.Hex
