import Cppnet.Bytes
import Mathlib.Data.List.FinRange
import Mathlib.Data.Nat.Bitwise
import Mathlib.Logic.Function.Basic

/-!
# Base64

`encoding/base64.cpp`, for any alphabet of 64 characters and with or without padding. The data is
encoded in blocks of three bytes, in place in a string of the size computed before, and decoded in
blocks of four characters into a vector of the size computed before. `none` stands for an access
outside of the string, of the vector or of the decode map, and for a vector that is too large.

Three bytes are a number of 24 bits, and four characters of the alphabet one of four digits of 6
bits (`digitsValue_blockDigits`). A last block of one or two bytes is padded with zeros, and the digits
that are all padding are left out: the decoder puts them back as zeros, and writes as many bytes as
the characters it has read are good for.
-/

namespace Cppnet.Base64

open Lib

/-- `alphabet`. -/
abbrev Alphabet := Fin 64 → Byte

/-- `decode_map`. -/
abbrev DecodeMap := Fin 256 → Byte

/-- `standard_alphabet`. -/
def standardAlphabet : Alphabet := fun i =>
  (sv "ABCDEFGHIJKLMNOPQRSTUVWXYZabcdefghijklmnopqrstuvwxyz0123456789+/").getD i 0

/-- `encoded_size`. -/
def encodedSize (inputSize : ℕ) (padding : Bool) : ℕ :=
  if padding then (inputSize + 2) % 2 ^ 64 / 3 * 4 % 2 ^ 64
  else (inputSize * 8 % 2 ^ 64 + 5) % 2 ^ 64 / 6

/-- `decoded_size`. -/
def decodedSize (inputSize : ℕ) (padding : Bool) : ℕ :=
  if padding then inputSize / 4 * 3 % 2 ^ 64 else inputSize * 6 % 2 ^ 64 / 8

/-- A (signed) character, as an index. -/
def index (c : Byte) : ℕ := if c < 128 then c.toNat else 2 ^ 64 - 256 + c.toNat

/-- The entry of a character in a decode map. -/
def lookup (decoder : DecodeMap) (c : Byte) : Option Byte :=
  if h : index c < 256 then some (decoder ⟨index c, h⟩) else none

/-- Setting the entry of a character in a decode map. -/
def enter (decoder : DecodeMap) (c v : Byte) : Option DecodeMap :=
  if h : index c < 256 then some (Function.update decoder ⟨index c, h⟩ v) else none

/-- `build_decoder`, which is cached for each alphabet. -/
def buildDecoder (alphabet : Alphabet) : Option DecodeMap :=
  (List.finRange 64).foldlM (fun out i => enter out (alphabet i) (UInt8.ofNat i)) fun _ => 0xff

/-- `encoding`: an alphabet with its decode map, and the padding character, `0` for no padding. -/
structure Encoding where
  encoder : Alphabet
  decoder : DecodeMap
  padchar : Byte
  build : buildDecoder encoder = some decoder

/-- `encoding::encoding`. -/
def encoding (alphabet : Alphabet) (padchar : Byte) : Option Encoding :=
  match h : buildDecoder alphabet with
  | none => none
  | some decoder => some ⟨alphabet, decoder, padchar, h⟩

/-- The last six bits of a number. -/
def sextet (n : ℕ) : Fin 64 := ⟨n &&& 0b111111, Nat.and_lt_two_pow n (by decide : 0b111111 < 2 ^ 6)⟩

namespace Encoding

variable (enc : Encoding)

/-! ## Encoding -/

/-- What `encode_triplet` writes. -/
def encodeTriplet (a b c : Byte) : Bytes :=
  let combined := a.toNat <<< 16 ||| b.toNat <<< 8 ||| c.toNat <<< 0
  [enc.encoder (sextet (combined >>> 18)), enc.encoder (sextet (combined >>> 12)),
    enc.encoder (sextet (combined >>> 6)), enc.encoder (sextet (combined >>> 0))]

/-- What `encode_trailing` writes. -/
def encodeTrailing : Bytes → Bytes
  | [a] =>
    let combined := a.toNat <<< 16
    [enc.encoder (sextet (combined >>> 18)), enc.encoder (sextet (combined >>> 12))]
  | [a, b] =>
    let combined := a.toNat <<< 16 ||| b.toNat <<< 8
    [enc.encoder (sextet (combined >>> 18)), enc.encoder (sextet (combined >>> 12)),
      enc.encoder (sextet (combined >>> 6))]
  | _ => []

/-- The loop of `encode` over the blocks of three bytes: the string, the position in it, and the
    bytes left. -/
def encodeBlocks (out : Bytes) (outI : ℕ) : Bytes → Option (Bytes × ℕ × Bytes)
  | a :: b :: c :: data => do
    let out ← store out outI (enc.encodeTriplet a b c)
    encodeBlocks out (outI + 4) data
  | data => some (out, outI, data)

/-- `encoding::encode`. -/
def encode (data : Bytes) : Option Bytes := do
  let out := List.replicate (encodedSize data.length (enc.padchar != 0)) enc.padchar
  let (out, outI, data) ← enc.encodeBlocks out 0 data
  let trailing := enc.encodeTrailing data
  let out ← store out outI trailing
  let i := outI + trailing.length
  if enc.padchar ≠ 0 then store out i (List.replicate (out.length - i) enc.padchar) else some out

/-! ## Decoding -/

/-- The loop of `decode_triplet` that skips padding, with the number of characters to look at from
    the position `i` on, where `c` was read. The character behind the end of the data is `past`. -/
def skipPadding (padchar past : Byte) (data : Bytes) : ℕ → ℕ → Byte → ℕ
  | 0, i, _ => i
  | n + 1, i, c =>
    if c = padchar then skipPadding padchar past data n (i + 1) (data.getD (i + 1) past) else i

/-- The loop of `decode_triplet`: the position it stops at, and the part of the buffer that
    is filled. -/
def lookahead (past : Byte) (data : Bytes) : ℕ → ℕ → Bytes → Option (ℕ × Bytes)
  | 0, i, buf => some (i, buf)
  | n + 1, i, buf => do
    let c := data.getD i past
    let dec ← lookup enc.decoder c
    if dec = 0xff then
      -- padding, or the end
      some (if enc.padchar ≠ 0 then skipPadding enc.padchar past data (n + 1) i c else i, buf)
    else lookahead past data n (i + 1) (buf ++ [dec])

/-- `decode_triplet`, on the characters `data` that remain. `some none` if they are not valid. -/
def decodeTriplet (past : Byte) (out : Bytes) (outI : ℕ) (data : Bytes) : Option (Option Bytes) := do
  let n := min data.length 4
  let (i, buf) ← enc.lookahead past data n 0 []
  if i < n then some none
  else
    let combined := (buf.getD 0 0).toNat <<< 18 ||| (buf.getD 1 0).toNat <<< 12 |||
      (buf.getD 2 0).toNat <<< 6 ||| (buf.getD 3 0).toNat <<< 0
    let bytes := [UInt8.ofNat (combined >>> 16), UInt8.ofNat (combined >>> 8),
      UInt8.ofNat (combined >>> 0)]
    -- `buf.length - 1` of them
    let out ← store out outI (bytes.take (buf.length - 1))
    some (some out)

/-- The loop of `decode`. -/
def decodeLoop (past : Byte) : ℕ → Bytes → ℕ → Bytes → Option (Option Bytes)
  | 0, _, _, _ => none
  | fuel + 1, out, outI, data =>
    if data = [] then some (some out)
    else
      match enc.decodeTriplet past out outI data with
      | none => none
      | some none => some none
      | some (some out) => decodeLoop past fuel out (outI + 3) (data.drop 4)

/-- `encoding::decode`, where `past` is the character in memory behind the end of the data. -/
def decode (past : Byte) (data : Bytes) : Option (Option Bytes) :=
  let outSize := decodedSize data.length (enc.padchar != 0)
  if enc.padchar ≠ 0 then
    -- the last two characters might be padding
    if data.length < 2 then none
    else
      let padding := (data.drop (data.length - 2)).count enc.padchar
      let outSize := (outSize + 2 ^ 64 - padding) % 2 ^ 64
      -- a vector of more than `max_size` bytes: an exception, in a function that is `noexcept`
      if 2 ^ 63 ≤ outSize then none
      else enc.decodeLoop past (data.length + 1) (List.replicate outSize 0) 0 data
  else enc.decodeLoop past (data.length + 1) (List.replicate outSize 0) 0 data

end Encoding

/-! ## Numbers of 24 bits -/

@[simp] theorem val_sextet (n : ℕ) : (sextet n : ℕ) = n % 64 := Nat.and_two_pow_sub_one_eq_mod n 6

/-- Three bytes as a number. -/
theorem or_bytes (a b c : Byte) :
    a.toNat <<< 16 ||| b.toNat <<< 8 ||| c.toNat <<< 0 =
      a.toNat * 65536 + b.toNat * 256 + c.toNat := by
  have hb := UInt8.toNat_lt b
  have hc := UInt8.toNat_lt c
  have hlow : b.toNat <<< 8 ||| c.toNat = b.toNat <<< 8 + c.toNat :=
    (Nat.shiftLeft_add_eq_or_of_lt hc _).symm
  have hlt : b.toNat <<< 8 + c.toNat < 2 ^ 16 := by
    rw [Nat.shiftLeft_eq]
    omega
  rw [Nat.shiftLeft_zero, Nat.or_assoc, hlow, ← Nat.shiftLeft_add_eq_or_of_lt hlt,
    Nat.shiftLeft_eq, Nat.shiftLeft_eq]
  omega

/-- Four digits of six bits as a number. -/
theorem or_digits {x y z w : ℕ} (hy : y < 64) (hz : z < 64) (hw : w < 64) :
    x <<< 18 ||| y <<< 12 ||| z <<< 6 ||| w <<< 0 = x * 262144 + y * 4096 + z * 64 + w := by
  have hzw : z <<< 6 ||| w = z <<< 6 + w := (Nat.shiftLeft_add_eq_or_of_lt hw _).symm
  have hlt : z <<< 6 + w < 2 ^ 12 := by
    rw [Nat.shiftLeft_eq]
    omega
  have hyzw : y <<< 12 ||| (z <<< 6 + w) = y <<< 12 + (z <<< 6 + w) :=
    (Nat.shiftLeft_add_eq_or_of_lt hlt _).symm
  have hlt' : y <<< 12 + (z <<< 6 + w) < 2 ^ 18 := by
    rw [Nat.shiftLeft_eq, Nat.shiftLeft_eq] at *
    omega
  rw [Nat.shiftLeft_zero, Nat.or_assoc, Nat.or_assoc, hzw, hyzw,
    ← Nat.shiftLeft_add_eq_or_of_lt hlt', Nat.shiftLeft_eq, Nat.shiftLeft_eq, Nat.shiftLeft_eq]
  omega

/-! ## Blocks -/

/-- The number of up to three bytes, padded with zeros. -/
def blockValue (bs : Bytes) : ℕ :=
  (bs.getD 0 0).toNat * 65536 + (bs.getD 1 0).toNat * 256 + (bs.getD 2 0).toNat

/-- The digits of up to three bytes, without those of the padding. -/
def blockDigits (bs : Bytes) : List (Fin 64) :=
  [sextet (blockValue bs >>> 18), sextet (blockValue bs >>> 12), sextet (blockValue bs >>> 6),
    sextet (blockValue bs >>> 0)].take (bs.length + 1)

/-- The number of up to four digits, padded with zeros. -/
def digitsValue (ds : List (Fin 64)) : ℕ :=
  (ds.getD 0 0 : ℕ) * 262144 + (ds.getD 1 0 : ℕ) * 4096 + (ds.getD 2 0 : ℕ) * 64 + (ds.getD 3 0 : ℕ)

/-- The first `n` bytes of a number of 24 bits. -/
def valueBytes (v n : ℕ) : Bytes :=
  [UInt8.ofNat (v >>> 16), UInt8.ofNat (v >>> 8), UInt8.ofNat (v >>> 0)].take n

/-- A block of one to three bytes. -/
theorem block_cases {bs : Bytes} (hne : bs ≠ []) (hle : bs.length ≤ 3) :
    (∃ a, bs = [a]) ∨ (∃ a b, bs = [a, b]) ∨ ∃ a b c, bs = [a, b, c] := by
  rcases bs with _ | ⟨a, _ | ⟨b, _ | ⟨c, _ | ⟨_, _⟩⟩⟩⟩
  · exact absurd rfl hne
  · exact .inl ⟨a, rfl⟩
  · exact .inr (.inl ⟨a, b, rfl⟩)
  · exact .inr (.inr ⟨a, b, c, rfl⟩)
  · simp only [List.length_cons] at hle
    omega

/-- Induction over the blocks of three bytes, and a last one of one or two. -/
theorem blocks_induction {motive : Bytes → Prop} (nil : motive [])
    (last : ∀ bs, bs ≠ [] → bs.length < 3 → motive bs)
    (block : ∀ a b c data, motive data → motive (a :: b :: c :: data)) : ∀ data, motive data
  | [] => nil
  | [a] => last [a] (by simp) (by simp)
  | [a, b] => last [a, b] (by simp) (by simp)
  | a :: b :: c :: data => block a b c data (blocks_induction nil last block data)

theorem length_blockDigits {bs : Bytes} (hle : bs.length ≤ 3) :
    (blockDigits bs).length = bs.length + 1 := by
  simp only [blockDigits, List.length_take, List.length_cons, List.length_nil]
  omega

/-- The digits left out are zeros. -/
theorem digitsValue_blockDigits {bs : Bytes} (hne : bs ≠ []) (hle : bs.length ≤ 3) :
    digitsValue (blockDigits bs) = blockValue bs := by
  rcases block_cases hne hle with ⟨a, rfl⟩ | ⟨a, b, rfl⟩ | ⟨a, b, c, rfl⟩
  all_goals
    simp [digitsValue, blockDigits, blockValue, Nat.shiftRight_eq_div_pow]
  · have ha := UInt8.toNat_lt a
    omega
  · have ha := UInt8.toNat_lt a
    have hb := UInt8.toNat_lt b
    omega
  · have ha := UInt8.toNat_lt a
    have hb := UInt8.toNat_lt b
    have hc := UInt8.toNat_lt c
    omega

theorem ofNat_eq {n : ℕ} {a : Byte} (h : n % 256 = a.toNat) : UInt8.ofNat n = a :=
  UInt8.toNat_inj.1 (UInt8.toNat_ofNat'.trans h)

/-- The bytes of a number of three bytes. -/
theorem bytes_of_value (a b c : Byte) (n : ℕ) :
    valueBytes (a.toNat * 65536 + b.toNat * 256 + c.toNat) n = [a, b, c].take n := by
  have ha := UInt8.toNat_lt a
  have hb := UInt8.toNat_lt b
  have hc := UInt8.toNat_lt c
  have hhigh : (a.toNat * 65536 + b.toNat * 256 + c.toNat) / 2 ^ 16 % 256 = a.toNat := by omega
  have hmid : (a.toNat * 65536 + b.toNat * 256 + c.toNat) / 2 ^ 8 % 256 = b.toNat := by omega
  have hlow : (a.toNat * 65536 + b.toNat * 256 + c.toNat) / 2 ^ 0 % 256 = c.toNat := by omega
  rw [valueBytes, Nat.shiftRight_eq_div_pow, Nat.shiftRight_eq_div_pow, Nat.shiftRight_eq_div_pow,
    ofNat_eq hhigh, ofNat_eq hmid, ofNat_eq hlow]

theorem valueBytes_blockValue {bs : Bytes} (hne : bs ≠ []) (hle : bs.length ≤ 3) :
    valueBytes (blockValue bs) bs.length = bs := by
  rcases block_cases hne hle with ⟨a, rfl⟩ | ⟨a, b, rfl⟩ | ⟨a, b, c, rfl⟩
  · exact bytes_of_value a 0 0 1
  · exact bytes_of_value a b 0 2
  · exact bytes_of_value a b c 3

/-! ## The decode map -/

theorem index_lt_iff (c : Byte) : index c < 256 ↔ c < 128 := by
  have hc := UInt8.toNat_lt c
  rw [index]
  split
  · next h => exact iff_of_true hc h
  · next h => exact iff_of_false (by omega) h

/-- An entry is for one character, and characters have different entries. -/
theorem enter_eq_some {out out' : DecodeMap} {c v : Byte} (h : enter out c v = some out') :
    c < 128 ∧ ∀ c' < 128, lookup out' c' = if c' = c then some v else lookup out c' := by
  rw [enter] at h
  split at h
  · next hc =>
    cases h
    refine ⟨(index_lt_iff c).1 hc, fun c' hc' => ?_⟩
    have hindex := (index_lt_iff c').2 hc'
    rw [lookup, lookup, dif_pos hindex, dif_pos hindex]
    split
    · next heq =>
      subst heq
      rw [Function.update_self]
    · next hne =>
      rw [Function.update_of_ne]
      intro heq
      rw [Fin.mk.injEq, index, index, if_pos hc', if_pos ((index_lt_iff c).1 hc)] at heq
      exact hne (UInt8.toNat_inj.1 heq)
  · cases h

/-- The digit of a character: where it comes last in the alphabet. -/
def digit (alphabet : Alphabet) (c : Byte) : Option (Fin 64) :=
  (List.finRange 64).reverse.find? fun i => alphabet i = c

theorem alphabet_of_digit {alphabet : Alphabet} {c : Byte} {i : Fin 64} (h : digit alphabet c = some i) :
    alphabet i = c := by
  simpa using List.find?_some h

theorem digit_eq_none_iff {alphabet : Alphabet} {c : Byte} :
    digit alphabet c = none ↔ ∀ i, alphabet i ≠ c := by
  rw [digit, List.find?_eq_none]
  simp

theorem toNat_ofNat_digit : ∀ i : Fin 64, (UInt8.ofNat i).toNat = i := by decide

/-- No digit is the entry of a character that is not in the alphabet. -/
theorem ofNat_digit_ne : ∀ i : Fin 64, UInt8.ofNat i ≠ 0xff := by decide

theorem digit_alphabet {alphabet : Alphabet} (hinj : Function.Injective alphabet) (i : Fin 64) :
    digit alphabet (alphabet i) = some i := by
  cases h : digit alphabet (alphabet i) with
  | none => exact absurd rfl (digit_eq_none_iff.1 h i)
  | some j => rw [hinj (alphabet_of_digit h)]

theorem mapM_digit_map {alphabet : Alphabet} (hinj : Function.Injective alphabet) (ds : List (Fin 64)) :
    (ds.map alphabet).mapM (digit alphabet) = some ds := by
  induction ds with
  | nil => rfl
  | cons i ds ih =>
    rw [List.map_cons, List.mapM_cons, digit_alphabet hinj, ih]
    rfl

/-- The loop of `build_decoder` enters each character with the last of its digits. -/
theorem foldlM_enter {alphabet : Alphabet} {l : List (Fin 64)} {out decoder : DecodeMap}
    (h : l.foldlM (fun out i => enter out (alphabet i) (UInt8.ofNat i)) out = some decoder) :
    (∀ i ∈ l, alphabet i < 128) ∧ ∀ c < 128, lookup decoder c =
      ((l.reverse.find? fun i => alphabet i = c).map fun i : Fin 64 => UInt8.ofNat i).or (lookup out c) := by
  induction l generalizing out with
  | nil =>
    cases h
    exact ⟨List.forall_mem_nil _, fun _ _ => rfl⟩
  | cons i l ih =>
    rw [List.foldlM_cons] at h
    obtain ⟨out', henter, hfold⟩ := Option.bind_eq_some_iff.1 h
    obtain ⟨hascii, hlookup⟩ := ih hfold
    obtain ⟨hi, hentered⟩ := enter_eq_some henter
    refine ⟨List.forall_mem_cons.2 ⟨hi, hascii⟩, fun c hc => ?_⟩
    rw [hlookup c hc, hentered c hc, List.reverse_cons, List.find?_append, List.find?_singleton]
    cases l.reverse.find? fun i => alphabet i = c with
    | some j => rfl
    | none =>
      by_cases heq : c = alphabet i
      · simp [heq]
      · simp [heq, Ne.symm heq]

/-- The decode map of an alphabet has the digits of its characters, and nothing for others. -/
theorem lookup_of_build {alphabet : Alphabet} {decoder : DecodeMap}
    (h : buildDecoder alphabet = some decoder) :
    (∀ i, alphabet i < 128) ∧
      ∀ c < 128, lookup decoder c = some (((digit alphabet c).map fun i : Fin 64 => UInt8.ofNat i).getD 0xff) := by
  obtain ⟨hascii, hlookup⟩ := foldlM_enter h
  refine ⟨fun i => hascii i (List.mem_finRange i), fun c hc => ?_⟩
  rw [hlookup c hc, ← digit, lookup, dif_pos ((index_lt_iff c).2 hc)]
  cases digit alphabet c <;> rfl

/-- There is a decode map for an alphabet of characters with seven bits. -/
theorem exists_decoder {alphabet : Alphabet} (hascii : ∀ i, alphabet i < 128) :
    ∃ decoder, buildDecoder alphabet = some decoder := by
  have hfold : ∀ (l : List (Fin 64)) (out : DecodeMap), ∃ decoder,
      l.foldlM (fun out i => enter out (alphabet i) (UInt8.ofNat i)) out = some decoder := by
    intro l
    induction l with
    | nil => exact fun out => ⟨out, rfl⟩
    | cons i l ih =>
      intro out
      rw [List.foldlM_cons, enter, dif_pos ((index_lt_iff _).2 (hascii i))]
      exact ih _
  exact hfold _ _

/-- An alphabet of characters with seven bits makes an encoding. -/
theorem encoding_eq_some {alphabet : Alphabet} (hascii : ∀ i, alphabet i < 128) (padchar : Byte) :
    ∃ enc, encoding alphabet padchar = some enc ∧ enc.encoder = alphabet ∧ enc.padchar = padchar := by
  obtain ⟨decoder, hbuild⟩ := exists_decoder hascii
  refine ⟨⟨alphabet, decoder, padchar, hbuild⟩, ?_, rfl, rfl⟩
  rw [encoding]
  split
  · next h => exact absurd (h.symm.trans hbuild) (Option.some_ne_none decoder).symm
  · next decoder' h =>
    obtain rfl := Option.some.inj (h.symm.trans hbuild)
    rfl

theorem Encoding.encoder_lt (enc : Encoding) (i : Fin 64) : enc.encoder i < 128 :=
  (lookup_of_build enc.build).1 i

theorem Encoding.lookup_decoder (enc : Encoding) {c : Byte} (hc : c < 128) :
    lookup enc.decoder c = some (((digit enc.encoder c).map fun i : Fin 64 => UInt8.ofNat i).getD 0xff) :=
  (lookup_of_build enc.build).2 c hc

/-- The decode map has the digits of the characters of the alphabet, and nothing for a padding
    character. -/
structure Encoding.Lawful (enc : Encoding) : Prop where
  lookup_encoder : ∀ i, lookup enc.decoder (enc.encoder i) = some (UInt8.ofNat i)
  lookup_padchar : enc.padchar ≠ 0 → lookup enc.decoder enc.padchar = some 0xff
  encoder_ne : enc.padchar ≠ 0 → ∀ i, enc.encoder i ≠ enc.padchar

theorem encoding_lawful {alphabet : Alphabet} (hinj : Function.Injective alphabet)
    (hascii : ∀ i, alphabet i < 128) {padchar : Byte}
    (hpad : padchar = 0 ∨ padchar < 128 ∧ ∀ i, alphabet i ≠ padchar) :
    ∃ enc, encoding alphabet padchar = some enc ∧ enc.Lawful := by
  obtain ⟨enc, henc, rfl, rfl⟩ := encoding_eq_some hascii padchar
  refine ⟨enc, henc, fun i => ?_, fun hne => ?_, fun hne => (hpad.resolve_left hne).2⟩
  · rw [enc.lookup_decoder (hascii i), digit_alphabet hinj]
    rfl
  · obtain ⟨hlt, hother⟩ := hpad.resolve_left hne
    rw [enc.lookup_decoder hlt, digit_eq_none_iff.2 hother]
    rfl

theorem Encoding.Lawful.injective {enc : Encoding} (henc : enc.Lawful) :
    Function.Injective enc.encoder := by
  intro i j heq
  have hij := (henc.lookup_encoder i).symm.trans (heq ▸ henc.lookup_encoder j)
  rw [Fin.ext_iff, ← toNat_ofNat_digit i, Option.some.inj hij, toNat_ofNat_digit]

theorem Encoding.Lawful.padchar_lt {enc : Encoding} (henc : enc.Lawful) (hpad : enc.padchar ≠ 0) :
    enc.padchar < 128 := by
  have hlookup := henc.lookup_padchar hpad
  rw [lookup] at hlookup
  split at hlookup
  · next h => exact (index_lt_iff _).1 h
  · cases hlookup

namespace Encoding

variable (enc : Encoding)

/-! ## The encoded text -/

/-- Padding of `n` characters, if there is padding. -/
def padding (n : ℕ) : Bytes := if enc.padchar ≠ 0 then List.replicate n enc.padchar else []

/-- The characters of a block of up to three bytes. -/
def block (bs : Bytes) : Bytes := (blockDigits bs).map enc.encoder ++ enc.padding (3 - bs.length)

/-- The characters of all blocks. -/
def text : Bytes → Bytes
  | a :: b :: c :: data => enc.block [a, b, c] ++ text data
  | [] => []
  | data => enc.block data

variable {enc}

@[simp] theorem padding_zero : enc.padding 0 = [] := by
  rw [padding]
  split <;> rfl

theorem length_padding (n : ℕ) : (enc.padding n).length = if enc.padchar ≠ 0 then n else 0 := by
  rw [padding]
  split <;> simp

/-- A block has four characters, or one more than it has bytes. -/
theorem length_block {bs : Bytes} (hle : bs.length ≤ 3) :
    (enc.block bs).length = if enc.padchar ≠ 0 then 4 else bs.length + 1 := by
  rw [block, List.length_append, List.length_map, length_blockDigits hle, length_padding]
  split <;> omega

theorem length_block_three (enc : Encoding) (a b c : Byte) : (enc.block [a, b, c]).length = 4 := by
  rw [length_block le_rfl]
  split <;> rfl

theorem encodeTriplet_eq (a b c : Byte) : enc.encodeTriplet a b c = enc.block [a, b, c] := by
  have h := or_bytes a b c
  rw [Nat.shiftLeft_zero] at h
  simp [encodeTriplet, block, blockDigits, blockValue, h]

theorem encodeTrailing_eq {bs : Bytes} (hne : bs ≠ []) (hlt : bs.length < 3) :
    enc.encodeTrailing bs = (blockDigits bs).map enc.encoder := by
  rcases block_cases hne hlt.le with ⟨a, rfl⟩ | ⟨a, b, rfl⟩ | ⟨a, b, c, rfl⟩
  · simp [encodeTrailing, blockDigits, blockValue, Nat.shiftLeft_eq]
  · have h := or_bytes a b 0
    rw [UInt8.toNat_zero, Nat.zero_shiftLeft, Nat.or_zero, Nat.add_zero] at h
    simp [encodeTrailing, blockDigits, blockValue, h]
  · exact absurd hlt (lt_irrefl 3)

theorem text_of_lt {bs : Bytes} (hne : bs ≠ []) (hlt : bs.length < 3) : enc.text bs = enc.block bs := by
  rcases block_cases hne hlt.le with ⟨a, rfl⟩ | ⟨a, b, rfl⟩ | ⟨a, b, c, rfl⟩
  · rfl
  · rfl
  · exact absurd hlt (lt_irrefl 3)

/-- The last block, and how many there are before it. -/
theorem exists_last_block (enc : Encoding) {data : Bytes} (hne : data ≠ []) :
    ∃ pre last k, enc.text data = pre ++ enc.block last ∧ last ≠ [] ∧ last.length ≤ 3 ∧
      data.length = 3 * k + last.length ∧ pre.length = 4 * k := by
  induction data using blocks_induction with
  | nil => exact absurd rfl hne
  | last bs _ hlt => exact ⟨[], bs, 0, by simpa using text_of_lt hne hlt, hne, hlt.le, by simp, rfl⟩
  | block a b c data ih =>
    rw [text]
    by_cases hdata : data = []
    · subst hdata
      exact ⟨[], [a, b, c], 0, by simp [text], by simp, le_rfl, rfl, rfl⟩
    · obtain ⟨pre, last, k, htext, hlast, hle, hlen, hpre⟩ := ih hdata
      refine ⟨enc.block [a, b, c] ++ pre, last, k + 1, by rw [htext, List.append_assoc], hlast, hle, ?_, ?_⟩
      · simp only [List.length_cons]
        omega
      · rw [List.length_append, length_block_three enc]
        omega

/-- The number of characters of the text. -/
theorem length_text_eq (enc : Encoding) (data : Bytes) :
    (enc.text data).length =
      if enc.padchar ≠ 0 then (data.length + 2) / 3 * 4 else (data.length * 8 + 5) / 6 := by
  by_cases hne : data = []
  · subst hne
    split <;> rfl
  · obtain ⟨pre, last, k, htext, hlast, hle, hdata, hpre⟩ := exists_last_block enc hne
    have hpos := List.length_pos_iff.2 hlast
    rw [htext, List.length_append, length_block hle]
    split <;> omega

/-- The size of the string is that of the text. -/
theorem length_text {data : Bytes} (hlen : data.length < 2 ^ 60) :
    (enc.text data).length = encodedSize data.length (enc.padchar != 0) := by
  rw [length_text_eq, encodedSize]
  by_cases hpad : enc.padchar = 0
  · simp only [hpad, ne_eq, not_true_eq_false, if_false, bne_self_eq_false, Bool.false_eq_true]
    omega
  · simp only [hpad, ne_eq, not_false_eq_true, if_true, bne_iff_ne]
    omega

/-- With padding, the size is right up to the greatest size of a vector. -/
theorem length_text_padded (hpad : enc.padchar ≠ 0) {data : Bytes} (hlen : data.length < 2 ^ 63) :
    (enc.text data).length = encodedSize data.length (enc.padchar != 0) := by
  rw [length_text_eq, encodedSize]
  simp only [hpad, ne_eq, not_false_eq_true, if_true, bne_iff_ne]
  omega

/-! ## Encoding -/

/-- The loop writes the full blocks over the string, and leaves up to two bytes. -/
theorem encodeBlocks_spec (enc : Encoding) (data w r : Bytes) (hr : (enc.text data).length ≤ r.length) :
    ∃ full rest, enc.encodeBlocks (w ++ r) w.length data =
        some (w ++ (full ++ r.drop full.length), (w ++ full).length, rest) ∧
      rest.length < 3 ∧ enc.text data = full ++ enc.text rest := by
  induction data using blocks_induction generalizing w r with
  | nil => exact ⟨[], [], by simp [encodeBlocks], by simp, rfl⟩
  | last bs hne hlt =>
    refine ⟨[], bs, ?_, hlt, rfl⟩
    rcases block_cases hne hlt.le with ⟨a, rfl⟩ | ⟨a, b, rfl⟩ | ⟨a, b, c, rfl⟩
    · simp [encodeBlocks]
    · simp [encodeBlocks]
    · exact absurd hlt (lt_irrefl 3)
  | block a b c data ih =>
    have hfour := length_block_three enc a b c
    rw [text, List.length_append] at hr
    obtain ⟨full, rest, hblocks, hrest, htext⟩ := ih (w ++ enc.block [a, b, c])
      (r.drop (enc.block [a, b, c]).length) (by rw [List.length_drop]; omega)
    have hstore := store_append w (r.take (enc.block [a, b, c]).length)
      (r.drop (enc.block [a, b, c]).length) (e := enc.block [a, b, c])
      (by rw [List.length_take]; omega)
    rw [List.take_append_drop] at hstore
    refine ⟨enc.block [a, b, c] ++ full, rest, ?_, hrest, by rw [text, htext, List.append_assoc]⟩
    rw [encodeBlocks, encodeTriplet_eq, hstore, hfour]
    rw [List.length_append, hfour, List.append_assoc] at hblocks
    refine hblocks.trans ?_
    simp [hfour]

/-- The text of what is left behind the full blocks. -/
theorem text_rest {rest : Bytes} (hrest : rest.length < 3) :
    enc.text rest = enc.encodeTrailing rest ++ enc.padding ((3 - rest.length) % 3) := by
  by_cases hne : rest = []
  · subst hne
    simp [text, encodeTrailing]
  · have hpos := List.length_pos_iff.2 hne
    rw [text_of_lt hne hrest, block, encodeTrailing_eq hne hrest, Nat.mod_eq_of_lt (by omega)]

/-- `encode` writes the text, into a string of its size. -/
theorem encode_of_length {data : Bytes}
    (hlen : (enc.text data).length = encodedSize data.length (enc.padchar != 0)) :
    enc.encode data = some (enc.text data) := by
  obtain ⟨full, rest, hblocks, hrest, htext⟩ := encodeBlocks_spec enc data []
    (List.replicate (enc.text data).length enc.padchar) (by simp)
  rw [List.nil_append, List.nil_append, List.nil_append, List.length_nil] at hblocks
  have htail : (List.replicate (enc.text data).length enc.padchar).drop full.length =
      List.replicate (enc.encodeTrailing rest).length enc.padchar ++
        List.replicate (enc.padding ((3 - rest.length) % 3)).length enc.padchar := by
    rw [htext, text_rest hrest, List.drop_replicate, ← List.replicate_add]
    simp
  rw [htail] at hblocks
  have hstore := store_append full (List.replicate (enc.encodeTrailing rest).length enc.padchar)
    (List.replicate (enc.padding ((3 - rest.length) % 3)).length enc.padchar)
    (e := enc.encodeTrailing rest) (by simp)
  simp only [encode, ← hlen, hblocks, hstore, Option.bind_eq_bind, Option.bind_some]
  rw [htext, text_rest hrest, padding]
  split_ifs with hpad
  · have hpads := store_append (full ++ enc.encodeTrailing rest)
      (List.replicate ((3 - rest.length) % 3) enc.padchar) []
      (e := List.replicate ((3 - rest.length) % 3) enc.padchar) rfl
    simpa [← Nat.add_assoc] using hpads
  · simp

theorem encode_eq {data : Bytes} (hlen : data.length < 2 ^ 60) :
    enc.encode data = some (enc.text data) :=
  encode_of_length (length_text hlen)

/-- What the loop has written is inside of the string. -/
theorem encodeBlocks_fits {data out out' rest : Bytes} {outI outI' : ℕ}
    (h : enc.encodeBlocks out outI data = some (out', outI', rest)) :
    out'.length = out.length ∧ rest.length = data.length % 3 ∧ outI' = outI + 4 * (data.length / 3) ∧
      (data.length < 3 ∨ outI' ≤ out.length) := by
  induction data using blocks_induction generalizing out outI with
  | nil =>
    cases h
    exact ⟨rfl, rfl, rfl, .inl (by decide)⟩
  | last bs hne hlt =>
    rcases block_cases hne hlt.le with ⟨a, rfl⟩ | ⟨a, b, rfl⟩ | ⟨a, b, c, rfl⟩
    · cases h
      exact ⟨rfl, rfl, by simp, .inl hlt⟩
    · cases h
      exact ⟨rfl, rfl, by simp, .inl hlt⟩
    · exact absurd hlt (lt_irrefl 3)
  | block a b c data ih =>
    rw [encodeBlocks, encodeTriplet_eq] at h
    obtain ⟨out₁, hstore, hblocks⟩ := Option.bind_eq_some_iff.1 h
    have hroom := store_spec out outI (enc.block [a, b, c])
    rw [hstore, length_block_three] at hroom
    obtain ⟨hlen, hrest, hpos, hfits⟩ := ih hblocks
    simp only [List.length_cons]
    omega

/-- If nothing is written outside of the string, then `encode` gives the text. -/
theorem text_of_encode {data t : Bytes} (h : enc.encode data = some t) : t = enc.text data := by
  have hencode := h
  rw [encode] at h
  obtain ⟨⟨out, outI, rest⟩, hblocks, h⟩ := Option.bind_eq_some_iff.1 h
  obtain ⟨out', hstore, -⟩ := Option.bind_eq_some_iff.1 h
  obtain ⟨hlen, hrest, hpos, hfits⟩ := encodeBlocks_fits hblocks
  have hroom := store_spec out outI (enc.encodeTrailing rest)
  rw [hstore] at hroom
  have htrailing : (enc.encodeTrailing rest).length = if rest.length = 0 then 0 else rest.length + 1 := by
    split
    · next hnil =>
      rw [List.length_eq_zero_iff.1 hnil]
      rfl
    · next hne =>
      rw [encodeTrailing_eq (List.length_pos_iff.1 (Nat.pos_of_ne_zero hne)) (by omega), List.length_map,
        length_blockDigits (by omega)]
  have hsize : (enc.text data).length = encodedSize data.length (enc.padchar != 0) := by
    rw [List.length_replicate] at hlen hfits
    rw [length_text_eq]
    rw [encodedSize] at hlen hfits ⊢
    by_cases hpad : enc.padchar = 0
    · simp only [hpad, ne_eq, not_true_eq_false, if_false, bne_self_eq_false, Bool.false_eq_true]
        at hlen hfits ⊢
      split at htrailing <;> omega
    · simp only [hpad, ne_eq, not_false_eq_true, if_true, bne_iff_ne] at hlen hfits ⊢
      have hblocks := Nat.div_le_div_right (c := 3) (Nat.mod_le (data.length + 2) (2 ^ 64))
      have hwrapped := Nat.mod_le ((data.length + 2) % 2 ^ 64 / 3 * 4) (2 ^ 64)
      split at htrailing <;> omega
  rw [encode_of_length hsize] at hencode
  exact (Option.some.inj hencode).symm

/-! ## Decoding -/

/-- Up to two of the last two characters are padding. -/
theorem count_last_le (padchar : Byte) (s : Bytes) : (s.drop (s.length - 2)).count padchar ≤ 2 := by
  refine List.count_le_length.trans ?_
  rw [List.length_drop]
  omega

/-- The digits of a group of characters: characters of the alphabet, and padding behind them. -/
def groupDigits (enc : Encoding) : Bytes → Option (List (Fin 64))
  | [] => some []
  | c :: group =>
    match digit enc.encoder c with
    | some i => (groupDigits enc group).map (i :: ·)
    | none =>
      if enc.padchar ≠ 0 ∧ ∀ c' ∈ c :: group, c' = enc.padchar then some [] else none

/-- The first character of a group that is not one of the alphabet. -/
def other (enc : Encoding) (group : Bytes) : Option Byte :=
  group.find? fun c => (digit enc.encoder c).isNone

theorem other_lt (enc : Encoding) {group : Bytes} (hgroup : ∀ c ∈ group, c < 128) :
    ∀ c ∈ enc.other group, c < 128 :=
  fun c hc => hgroup c (List.mem_of_find?_eq_some hc)

theorem other_cons_some {c : Byte} {i : Fin 64} (h : digit enc.encoder c = some i) (group : Bytes) :
    enc.other (c :: group) = enc.other group := by
  rw [other, List.find?_cons_of_neg (by simp [h]), other]

theorem other_cons_none {c : Byte} (h : digit enc.encoder c = none) (group : Bytes) :
    enc.other (c :: group) = some c := by
  rw [other, List.find?_cons_of_pos (by simp [h])]

/-- The padding that is skipped: up to the end of a group that is all padding, and no further. -/
theorem skipPadding_group (padchar past c : Byte) (pre group rest : Bytes) {i : ℕ}
    (hi : skipPadding padchar past (pre ++ (c :: group ++ rest)) (group.length + 1) pre.length c = i) :
    ((∀ c' ∈ c :: group, c' = padchar) → i = pre.length + (group.length + 1)) ∧
      ((¬∀ c' ∈ c :: group, c' = padchar) → i < pre.length + (group.length + 1)) := by
  induction group generalizing pre c with
  | nil =>
    rw [List.length_nil, skipPadding] at hi
    rw [List.forall_mem_singleton]
    split at hi
    · next hc => exact ⟨fun _ => hi.symm, fun h => absurd hc h⟩
    · next hc => exact ⟨fun h => absurd h hc, fun _ => by omega⟩
  | cons c' group ih =>
    have hchar : (pre ++ (c :: c' :: group ++ rest)).getD (pre.length + 1) past = c' := by simp
    rw [List.length_cons, skipPadding, hchar] at hi
    rw [List.forall_mem_cons, List.length_cons]
    split at hi
    · next hc =>
      have h := ih c' (pre ++ [c]) (by simpa using hi)
      rw [List.length_append, List.length_singleton, Nat.add_assoc, Nat.add_comm 1] at h
      exact ⟨fun hall => h.1 hall.2, fun hnot => h.2 fun hall => hnot ⟨hc, hall⟩⟩
    · next hc => exact ⟨fun h => absurd h.1 hc, fun _ => by omega⟩

/-- The digits of a group fill the buffer. One that is not characters of the alphabet followed by
    padding is left before its end. -/
theorem lookahead_group (enc : Encoding) (past : Byte) {group : Bytes}
    (hgroup : ∀ c ∈ enc.other group, c < 128) (pre rest buf : Bytes) :
    match enc.groupDigits group with
    | some ds => enc.lookahead past (pre ++ (group ++ rest)) group.length pre.length buf =
        some (pre.length + group.length, buf ++ ds.map fun i : Fin 64 => UInt8.ofNat i)
    | none => ∃ i buf', enc.lookahead past (pre ++ (group ++ rest)) group.length pre.length buf =
        some (i, buf') ∧ i < pre.length + group.length := by
  induction group generalizing pre buf with
  | nil => simp [groupDigits, lookahead]
  | cons c group ih =>
    have hchar : (pre ++ (c :: group ++ rest)).getD pre.length past = c := by simp
    have hlt : c < 128 := by
      cases h : digit enc.encoder c with
      | some i => exact alphabet_of_digit h ▸ enc.encoder_lt i
      | none => exact hgroup c (other_cons_none h group)
    rw [groupDigits, List.length_cons, lookahead, hchar, enc.lookup_decoder hlt]
    cases h : digit enc.encoder c with
    | some i =>
      rw [other_cons_some h] at hgroup
      have hrest := ih hgroup (pre ++ [c]) (buf ++ [UInt8.ofNat i])
      rw [List.length_append, List.length_singleton, List.append_assoc, List.singleton_append,
        ← List.cons_append] at hrest
      simp only [Option.map_some, Option.getD_some, Option.bind_eq_bind, Option.bind_some,
        if_neg (ofNat_digit_ne i)]
      cases hds : enc.groupDigits group with
      | some ds =>
        rw [hds] at hrest
        dsimp only [Option.map_some] at hrest ⊢
        rw [hrest, List.append_assoc, Nat.add_assoc, Nat.add_comm 1]
        rfl
      | none =>
        rw [hds] at hrest
        obtain ⟨j, buf', hlook, hlt⟩ := hrest
        exact ⟨j, buf', hlook, by omega⟩
    | none =>
      obtain ⟨hall, hnot⟩ := skipPadding_group enc.padchar past c pre group rest rfl
      simp only [Option.map_none, Option.getD_none, Option.bind_eq_bind, Option.bind_some, if_true]
      split
      · next heq =>
        split at heq
        · next hpad =>
          cases heq
          rw [if_pos hpad.1, hall hpad.2, List.map_nil, List.append_nil]
        · cases heq
      · next heq =>
        refine ⟨_, _, rfl, ?_⟩
        split at heq
        · cases heq
        · next hpad =>
          split
          · next hne => exact hnot fun h => hpad ⟨hne, h⟩
          · omega

theorem toNat_getD (ds : List (Fin 64)) (n : ℕ) :
    ((ds.map fun i : Fin 64 => UInt8.ofNat i).getD n 0).toNat = ds.getD n 0 := by
  rw [← toNat_ofNat_digit (ds.getD n 0), List.getD_eq_getElem?_getD, List.getD_eq_getElem?_getD, List.getElem?_map]
  cases ds[n]? <;> rfl

/-- A group of up to four characters is decoded to one byte less than it has digits. -/
theorem decodeTriplet_eq (past : Byte) {data : Bytes} (hdata : ∀ c ∈ enc.other (data.take 4), c < 128)
    (out : Bytes) (outI : ℕ) :
    enc.decodeTriplet past out outI data = match enc.groupDigits (data.take 4) with
      | some ds => (store out outI (valueBytes (digitsValue ds) (ds.length - 1))).map some
      | none => some none := by
  have hlook := enc.lookahead_group past hdata [] (data.drop 4) []
  rw [List.nil_append, List.take_append_drop, List.length_take, Nat.min_comm, List.length_nil,
    Nat.zero_add] at hlook
  rw [decodeTriplet]
  cases hds : enc.groupDigits (data.take 4) with
  | some ds =>
    rw [hds] at hlook
    dsimp only at hlook ⊢
    rw [hlook, List.nil_append, Option.bind_eq_bind, Option.bind_some]
    dsimp only
    rw [if_neg (lt_irrefl _), toNat_getD, toNat_getD, toNat_getD, toNat_getD, List.length_map,
      or_digits (Fin.is_lt _) (Fin.is_lt _) (Fin.is_lt _), ← digitsValue, ← valueBytes]
    cases store out outI (valueBytes (digitsValue ds) (ds.length - 1)) <;> rfl
  | none =>
    rw [hds] at hlook
    obtain ⟨i, buf, hlook, hlt⟩ := hlook
    dsimp only
    rw [hlook, Option.bind_eq_bind, Option.bind_some]
    dsimp only
    rw [if_pos hlt]

/-- The digits of a group of characters of the alphabet and padding. -/
theorem groupDigits_append (hout : enc.padchar ≠ 0 → ∀ i, enc.encoder i ≠ enc.padchar) {chars : Bytes}
    {ds : List (Fin 64)} (hchars : chars.mapM (digit enc.encoder) = some ds) (n : ℕ) :
    enc.groupDigits (chars ++ enc.padding n) = some ds := by
  induction chars generalizing ds with
  | nil =>
    cases hchars
    rw [List.nil_append, padding]
    split
    · next hpad =>
      cases n with
      | zero => rfl
      | succ n =>
        rw [List.replicate_succ, groupDigits, digit_eq_none_iff.2 (hout hpad)]
        refine if_pos ⟨hpad, fun c' hc' => ?_⟩
        rw [← List.replicate_succ] at hc'
        exact List.eq_of_mem_replicate hc'
    · rfl
  | cons c chars ih =>
    rw [List.mapM_cons] at hchars
    obtain ⟨i, hi, hchars⟩ := Option.bind_eq_some_iff.1 hchars
    obtain ⟨es, hes, hchars⟩ := Option.bind_eq_some_iff.1 hchars
    cases hchars
    rw [List.cons_append, groupDigits, hi, ih hes]
    rfl

/-- The characters of a text have seven bits. -/
theorem Lawful.block_lt (henc : enc.Lawful) (bs : Bytes) : ∀ c ∈ enc.block bs, c < 128 := by
  intro c hc
  rw [block, padding, List.mem_append] at hc
  rcases hc with hc | hc
  · obtain ⟨i, -, rfl⟩ := List.mem_map.1 hc
    exact enc.encoder_lt i
  · split at hc
    · next hpad =>
      rw [List.eq_of_mem_replicate hc]
      exact henc.padchar_lt hpad
    · cases hc

/-- A block is decoded to its bytes. -/
theorem Lawful.decodeTriplet_block (henc : enc.Lawful) (past : Byte) {bs rest : Bytes} (hne : bs ≠ [])
    (hle : bs.length ≤ 3) (hrest : bs.length < 3 → rest = [])
    (out zeros : Bytes) (hzeros : bs.length ≤ zeros.length) :
    enc.decodeTriplet past (out ++ zeros) out.length (enc.block bs ++ rest) =
      some (some (out ++ (bs ++ zeros.drop bs.length))) := by
  have htake : (enc.block bs ++ rest).take 4 = enc.block bs := by
    by_cases hshort : bs.length < 3
    · rw [hrest hshort, List.append_nil, List.take_of_length_le]
      rw [length_block hle]
      split <;> omega
    · refine List.take_left' ?_
      rw [length_block hle]
      split <;> omega
  have hstore := store_append out (zeros.take bs.length) (zeros.drop bs.length) (e := bs)
    (by rw [List.length_take]; omega)
  rw [List.take_append_drop] at hstore
  have hother : ∀ c ∈ enc.other ((enc.block bs ++ rest).take 4), c < 128 := by
    rw [htake]
    exact enc.other_lt (henc.block_lt bs)
  rw [decodeTriplet_eq past hother, htake, block,
    groupDigits_append henc.encoder_ne (mapM_digit_map henc.injective _)]
  dsimp only
  rw [digitsValue_blockDigits hne hle, length_blockDigits hle, Nat.add_sub_cancel,
    valueBytes_blockValue hne hle, hstore]
  rfl

/-- The loop decodes the text block by block. -/
theorem Lawful.decodeLoop_text (henc : enc.Lawful) (past : Byte) (data out : Bytes) {fuel : ℕ}
    (hfuel : (enc.text data).length < fuel) :
    enc.decodeLoop past fuel (out ++ List.replicate data.length 0) out.length (enc.text data) =
      some (some (out ++ data)) := by
  induction data using blocks_induction generalizing out fuel with
  | nil =>
    obtain ⟨fuel, rfl⟩ := Nat.exists_eq_succ_of_ne_zero (Nat.ne_zero_of_lt hfuel)
    rw [text, decodeLoop, if_pos rfl]
    simp
  | last bs hne hlt =>
    -- A shorter block is the last one: the turn after it finds the end of the text.
    have hlen : 2 ≤ (enc.block bs).length ∧ (enc.block bs).length ≤ 4 := by
      have hpos := List.length_pos_iff.2 hne
      rw [length_block hlt.le]
      split <;> omega
    rw [text_of_lt hne hlt] at hfuel ⊢
    obtain ⟨fuel, rfl⟩ := Nat.exists_eq_add_of_le' (show 2 ≤ fuel by omega)
    have hblock := henc.decodeTriplet_block past hne hlt.le (fun _ => rfl) out
      (List.replicate bs.length 0) (by simp)
    rw [List.append_nil] at hblock
    rw [decodeLoop, if_neg (List.length_pos_iff.1 (by omega)), hblock]
    dsimp only
    rw [List.drop_eq_nil_of_le hlen.2, decodeLoop, if_pos rfl]
    simp
  | block a b c data ih =>
    obtain ⟨fuel, rfl⟩ := Nat.exists_eq_succ_of_ne_zero (Nat.ne_zero_of_lt hfuel)
    have hfour := length_block_three enc a b c
    have hne : enc.block [a, b, c] ++ enc.text data ≠ [] := by
      refine List.length_pos_iff.1 ?_
      rw [List.length_append, hfour]
      omega
    -- The bytes of the block take the place of the first three of the zeros.
    have hzeros : (List.replicate (a :: b :: c :: data).length (0 : Byte)).drop [a, b, c].length =
        List.replicate data.length 0 := rfl
    rw [text, List.length_append, hfour] at hfuel
    rw [text, decodeLoop, if_neg hne, henc.decodeTriplet_block past (by simp) le_rfl (by simp) out _
      (by simp), hzeros]
    have h := ih (out ++ [a, b, c]) (show (enc.text data).length < fuel by omega)
    rw [List.length_append, List.append_assoc] at h
    dsimp only
    rw [List.drop_left' hfour]
    refine h.trans ?_
    simp

/-- The padding among the last two characters of the text. -/
theorem Lawful.count_padchar (henc : enc.Lawful) (hpad : enc.padchar ≠ 0) (pre : Bytes) {last : Bytes}
    (hne : last ≠ []) (hle : last.length ≤ 3) :
    ((pre ++ enc.block last).drop ((pre ++ enc.block last).length - 2)).count enc.padchar =
      3 - last.length := by
  have hpos := List.length_pos_iff.2 hne
  have hdigits : (((blockDigits last).map enc.encoder).drop 2).count enc.padchar = 0 := by
    refine List.count_eq_zero.2 fun hmem => ?_
    obtain ⟨i, -, hi⟩ := List.mem_map.1 (List.mem_of_mem_drop hmem)
    exact henc.encoder_ne hpad i hi
  have hlen : (pre ++ enc.block last).length - 2 = pre.length + 2 := by
    rw [List.length_append, length_block hle, if_pos hpad]
    omega
  rw [hlen, List.drop_length_add_append, block, List.drop_append_of_le_length
    (by rw [List.length_map, length_blockDigits hle]; omega), List.count_append, hdigits, Nat.zero_add,
    padding, if_pos hpad, List.count_replicate_self]

/-- The padding tells how long the last block is, and so how much there is to be decoded. -/
theorem Lawful.length_eq_of_text_eq (henc : enc.Lawful) (hpad : enc.padchar ≠ 0) {data data' : Bytes}
    (h : enc.text data = enc.text data') : data.length = data'.length := by
  have hlen : ∀ {d : Bytes}, d ≠ [] → (enc.text d).length ≠ 0 := by
    intro d hd
    have hpos := List.length_pos_iff.2 hd
    rw [length_text_eq, if_pos hpad]
    omega
  by_cases hne : data = []
  · by_cases hne' : data' = []
    · rw [hne, hne']
    · rw [hne] at h
      exact absurd (congrArg List.length h).symm (hlen hne')
  · by_cases hne' : data' = []
    · rw [hne'] at h
      exact absurd (congrArg List.length h) (hlen hne)
    · obtain ⟨pre, last, k, htext, hlast, hle, hdata, hpre⟩ := exists_last_block enc hne
      obtain ⟨pre', last', k', htext', hlast', hle', hdata', hpre'⟩ := exists_last_block enc hne'
      have hcount := henc.count_padchar hpad pre hlast hle
      have hcount' := henc.count_padchar hpad pre' hlast' hle'
      have hlen' := congrArg List.length h
      rw [← htext, h, htext', hcount'] at hcount
      rw [htext, htext', List.length_append, List.length_append, length_block hle, length_block hle',
        if_pos hpad, if_pos hpad] at hlen'
      omega

/-- With padding, different data has different texts. -/
theorem Lawful.text_injective (henc : enc.Lawful) (hpad : enc.padchar ≠ 0) : Function.Injective enc.text := by
  intro data data' h
  have hloop := henc.decodeLoop_text 0 data [] (Nat.lt_succ_self _)
  have hloop' := henc.decodeLoop_text 0 data' [] (Nat.lt_succ_self _)
  rw [h, henc.length_eq_of_text_eq hpad h, hloop'] at hloop
  simpa using hloop.symm

/-- `decode` reads the text. -/
theorem Lawful.decode_text (henc : enc.Lawful) (past : Byte) {data : Bytes} (hne : data ≠ [])
    (hlen : data.length < 2 ^ 60) : enc.decode past (enc.text data) = some (some data) := by
  have hloop := henc.decodeLoop_text past data [] (Nat.lt_succ_self _)
  rw [List.nil_append, List.nil_append, List.length_nil] at hloop
  obtain ⟨pre, last, k, htext, hlast, hle, hdata, hpre⟩ := exists_last_block enc hne
  have hpos := List.length_pos_iff.2 hlast
  have htextlen : (enc.text data).length = 4 * k + if enc.padchar ≠ 0 then 4 else last.length + 1 := by
    rw [htext, List.length_append, length_block hle, hpre]
  rw [decode]
  dsimp only
  by_cases hpad : enc.padchar = 0
  · -- Without padding, the length of the text says how long the last block is.
    rw [if_neg (not_not_intro hpad)]
    have hsize : decodedSize (enc.text data).length (enc.padchar != 0) = data.length := by
      rw [htextlen, if_neg (not_not_intro hpad), hpad]
      simp only [decodedSize, bne_self_eq_false, Bool.false_eq_true, if_false]
      obtain h | h | h : last.length = 1 ∨ last.length = 2 ∨ last.length = 3 := by omega
      all_goals
        rw [h] at hdata ⊢
        omega
    rw [hsize, hloop]
  · -- With padding, the size is one of whole blocks, and the padding is taken off.
    have hcount := henc.count_padchar hpad pre hlast hle
    rw [← htext] at hcount
    rw [if_pos hpad] at htextlen
    have hsize : (decodedSize (enc.text data).length (enc.padchar != 0) + 2 ^ 64 -
        ((enc.text data).drop ((enc.text data).length - 2)).count enc.padchar) % 2 ^ 64 =
        data.length := by
      rw [hcount, htextlen]
      simp only [decodedSize, bne_iff_ne, ne_eq, hpad, not_false_eq_true, if_true]
      omega
    rw [if_pos hpad, if_neg (by omega), hsize, if_neg (by omega), hloop]

end Encoding

/-- What is encoded is decoded to what it was, whatever the alphabet, and with or without padding. -/
theorem decode_encode (alphabet : Alphabet) (hinj : Function.Injective alphabet)
    (hascii : ∀ i, alphabet i < 128) (padchar : Byte)
    (hpad : padchar = 0 ∨ padchar < 128 ∧ ∀ i, alphabet i ≠ padchar) (d : Bytes) (hne : d ≠ [])
    (hlen : d.length < 2 ^ 60) (past : Byte) :
    ∃ enc text, encoding alphabet padchar = some enc ∧ enc.encode d = some text ∧
      enc.decode past text = some (some d) := by
  obtain ⟨enc, henc, hlawful⟩ := encoding_lawful hinj hascii hpad
  exact ⟨enc, enc.text d, henc, enc.encode_eq hlen, hlawful.decode_text past hne hlen⟩

/-- The characters of the standard alphabet are told apart by where they are in it. -/
theorem standardAlphabet_injective : Function.Injective standardAlphabet := by
  have hindex : ∀ i : Fin 64,
      (sv "ABCDEFGHIJKLMNOPQRSTUVWXYZabcdefghijklmnopqrstuvwxyz0123456789+/").idxOf (standardAlphabet i) = i := by
    decide +kernel
  intro i j heq
  rw [Fin.ext_iff, ← hindex i, heq, hindex j]

theorem standardAlphabet_lt : ∀ i, standardAlphabet i < 128 := by decide +kernel

theorem standardAlphabet_ne : ∀ i, standardAlphabet i ≠ ch '=' := by decide +kernel

/-- Four bytes in the standard alphabet, padded with two characters. -/
theorem decode_encode_four :
    (encoding standardAlphabet (ch '=')).bind (·.encode (sv "abcd")) = some (sv "YWJjZA==") ∧
      ∃ enc text, encoding standardAlphabet (ch '=') = some enc ∧ enc.encode (sv "abcd") = some text ∧
        enc.decode (ch '=') text = some (some (sv "abcd")) := by
  exact ⟨by decide +kernel, decode_encode standardAlphabet standardAlphabet_injective standardAlphabet_lt
    (ch '=') (.inr ⟨by decide, standardAlphabet_ne⟩) (sv "abcd") (by decide) (by decide) (ch '=')⟩

end Cppnet.Base64
