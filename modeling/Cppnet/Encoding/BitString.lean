import Cppnet.Encoding.Base64
import Cppnet.Lib.Bits

/-!
# Base64 as groups of bits

What the blocks of `encoding/base64.cpp` are for: the bytes of the data, and the digits of the
characters, are one string of bits, in groups of eight and in groups of six.

* `encode` takes the bits of the data six by six, with zeros to fill up the last six
  (`encode_bits`);
* `decode`, without padding, takes those of the digits eight by eight, and leaves out what is left
  in the end (`decode_unpadded`).
-/

namespace Cppnet.Base64

open Lib Bits

/-- The bits of bytes, the most significant one of each first, and zeros behind them. -/
def bits (data : Bytes) : ℕ → Bool := stream 8 (data.map UInt8.toNat)

/-- The digit `i` of the bits of bytes. -/
def sextetAt (data : Bytes) (i : ℕ) : Fin 64 := ⟨window (bits data) (6 * i) 6, window_lt _ _ _⟩

/-- The first `n` digits of the bits of bytes. -/
def sextets (data : Bytes) (n : ℕ) : List (Fin 64) := (List.range n).map (sextetAt data)

/-- The bytes of the bits of digits: as many as are complete. -/
def bytesOf (ds : List (Fin 64)) : Bytes :=
  (regroup 8 (6 * ds.length / 8) (stream 6 (ds.map (↑)))).map UInt8.ofNat

/-! ## Blocks -/

/-- Digits with zeros behind them, up to a number of them. -/
theorem fill_lt {w k : ℕ} {ds : List ℕ} (hds : ∀ d ∈ ds, d < 2 ^ w) :
    ∀ d ∈ ds ++ List.replicate k 0, d < 2 ^ w := by
  refine List.forall_mem_append.2 ⟨hds, fun d hd => ?_⟩
  rw [List.eq_of_mem_replicate hd]
  exact Nat.two_pow_pos w

theorem map_sextets (data : Bytes) (n : ℕ) :
    (sextets data n).map (fun i : Fin 64 => (i : ℕ)) = regroup 6 n (bits data) := by
  rw [sextets, List.map_map]
  rfl

/-- A block has four digits, before those of the bytes behind it. -/
theorem sextets_append (a b c : Byte) (data : Bytes) (n : ℕ) :
    sextets (a :: b :: c :: data) (4 + n) = sextets [a, b, c] 4 ++ sextets data n := by
  refine List.map_injective_iff.2 Fin.val_injective ?_
  have hbits : bits (a :: b :: c :: data) =
      stream 8 ([a, b, c].map UInt8.toNat ++ data.map UInt8.toNat) := rfl
  rw [List.map_append, map_sextets, map_sextets, map_sextets, hbits, bits, bits]
  exact regroup_append (by decide) (by rw [List.length_map]; rfl) n

/-- The digits of a block are its bits, six by six. -/
theorem blockDigits_eq {bs : Bytes} (hle : bs.length ≤ 3) :
    blockDigits bs = sextets bs (bs.length + 1) := by
  set ds := bs.map UInt8.toNat ++ List.replicate (3 - bs.length) 0 with hds
  have hlen : ds.length = 3 := by
    rw [hds, List.length_append, List.length_map, List.length_replicate]
    omega
  have hlt : ∀ d ∈ ds, d < 2 ^ 8 := fill_lt fun d hd => by
    obtain ⟨b, -, rfl⟩ := List.mem_map.1 hd
    exact UInt8.toNat_lt b
  have hvalue : value 8 ds = blockValue bs := by
    rcases bs with _ | ⟨a, _ | ⟨b, _ | ⟨c, _ | ⟨_, _⟩⟩⟩⟩
    all_goals
      simp [hds, value, blockValue, List.replicate_succ] at hle ⊢
      try omega
  have hbits : bits bs = stream 8 ds := (stream_append_replicate _).symm
  have hfour := regroup_of_fill (v := 6) (n := 4) hlt (by rw [hlen])
  refine List.map_injective_iff.2 Fin.val_injective ?_
  rw [map_sextets, hbits, ← take_regroup (by omega : bs.length + 1 ≤ 4), hfour, hvalue, blockDigits,
    List.map_take]
  simp [List.range_succ]

/-- The bytes of up to four digits are their bits, eight by eight. -/
theorem valueBytes_digitsValue {ds : List (Fin 64)} (hle : ds.length ≤ 4) :
    valueBytes (digitsValue ds) (ds.length - 1) = bytesOf ds := by
  set es := ds.map (fun i : Fin 64 => (i : ℕ)) ++ List.replicate (4 - ds.length) 0 with hes
  have hlen : es.length = 4 := by
    rw [hes, List.length_append, List.length_map, List.length_replicate]
    omega
  have hlt : ∀ d ∈ es, d < 2 ^ 6 := fill_lt fun d hd => by
    obtain ⟨i, -, rfl⟩ := List.mem_map.1 hd
    exact i.is_lt
  have hvalue : value 6 es = digitsValue ds := by
    rcases ds with _ | ⟨a, _ | ⟨b, _ | ⟨c, _ | ⟨d, _ | ⟨_, _⟩⟩⟩⟩⟩
    all_goals
      simp [hes, value, digitsValue, List.replicate_succ] at hle ⊢
      try omega
  have hbits : stream 6 (ds.map fun i : Fin 64 => (i : ℕ)) = stream 6 es :=
    (stream_append_replicate _).symm
  have hthree := regroup_of_fill (v := 8) (n := 3) hlt (by rw [hlen])
  have hcount : 6 * ds.length / 8 = ds.length - 1 := by omega
  rw [bytesOf, hcount, hbits, ← take_regroup (by omega : ds.length - 1 ≤ 3), hthree, hvalue,
    valueBytes, List.map_take]
  have hmod : ∀ n, UInt8.ofNat (n % 256) = UInt8.ofNat n := fun _ => UInt8.ofNat_mod_size
  simp [List.range_succ, hmod]

/-! ## Encoding -/

/-- The text of bytes: a character for each six bits, and padding. -/
theorem text_eq (enc : Encoding) (data : Bytes) :
    enc.text data = (sextets data ((8 * data.length + 5) / 6)).map enc.encoder ++
      enc.padding ((3 - data.length % 3) % 3) := by
  induction data using blocks_induction with
  | nil => simp [Encoding.text, sextets]
  | last bs hne hlt =>
    have hpos := List.length_pos_iff.2 hne
    have hcount : (8 * bs.length + 5) / 6 = bs.length + 1 := by omega
    have hpad : (3 - bs.length % 3) % 3 = 3 - bs.length := by omega
    rw [Encoding.text_of_lt hne hlt, Encoding.block, blockDigits_eq hlt.le, hcount, hpad]
  | block a b c data ih =>
    have hlen : (a :: b :: c :: data).length = data.length + 3 := rfl
    have hcount : (8 * (data.length + 3) + 5) / 6 = 4 + (8 * data.length + 5) / 6 := by omega
    rw [Encoding.text, ih, hlen, hcount, sextets_append, Nat.add_mod_right, Encoding.block,
      blockDigits_eq le_rfl, List.map_append, List.append_assoc, List.append_assoc]
    simp

/-- The text of data: as many characters as `encoded_size` says, one for each six bits of the data,
    with zeros to fill up the last ones, and nothing but padding behind them, up to a multiple of four,
    if there is padding. -/
theorem encode_bits (enc : Encoding) (d : Bytes) (hlen : d.length < 2 ^ 60) :
    ∃ text, enc.encode d = some text ∧ text.length = encodedSize d.length (enc.padchar != 0) ∧
      (∀ i, 6 * i < 8 * d.length → text[i]? = some (enc.encoder (sextetAt d i))) ∧
      (∀ i c, 8 * d.length ≤ 6 * i → text[i]? = some c → enc.padchar ≠ 0 ∧ c = enc.padchar) ∧
      (enc.padchar ≠ 0 → 4 ∣ text.length) := by
  have hsextets : ((sextets d ((8 * d.length + 5) / 6)).map enc.encoder).length =
      (8 * d.length + 5) / 6 := by
    rw [sextets, List.length_map, List.length_map, List.length_range]
  refine ⟨enc.text d, Encoding.encode_eq hlen, Encoding.length_text hlen, fun i hi => ?_,
    fun i c hi hc => ?_, fun hpad => ?_⟩
  · have hlt : i < (8 * d.length + 5) / 6 := by omega
    rw [text_eq, List.getElem?_append_left (by omega), List.getElem?_map, sextets,
      List.getElem?_map, List.getElem?_range hlt]
    rfl
  · rw [text_eq, List.getElem?_append_right (by omega), Encoding.padding] at hc
    split at hc
    · next hpad => exact ⟨hpad, List.eq_of_mem_replicate (List.mem_of_getElem? hc)⟩
    · cases hc
  · rw [Encoding.length_text_eq, if_pos hpad]
    exact Nat.dvd_mul_left 4 _

/-- Four bytes in the standard alphabet: six characters for the bits, and two of padding. -/
theorem encode_bits_four :
    ∃ enc text, encoding standardAlphabet (ch '=') = some enc ∧ enc.encode (sv "abcd") = some text ∧
      text.length = 8 ∧ text[5]? = some (standardAlphabet (sextetAt (sv "abcd") 5)) := by
  obtain ⟨enc, henc, hencoder, hpad⟩ := encoding_eq_some standardAlphabet_lt (ch '=')
  obtain ⟨text, htext, hlen, hbits, -⟩ := encode_bits enc (sv "abcd") (by decide)
  rw [hpad] at hlen
  exact ⟨enc, text, henc, htext, hlen, hencoder ▸ hbits 5 (by decide)⟩

/-! ## Decoding -/

theorem length_bytesOf (ds : List (Fin 64)) : (bytesOf ds).length = 6 * ds.length / 8 := by
  rw [bytesOf, List.length_map, length_regroup]

/-- Four digits are three bytes, before those of the digits behind them. -/
theorem bytesOf_append {ds es : List (Fin 64)} (h : ds.length = 4 ∨ es = []) :
    bytesOf (ds ++ es) = bytesOf ds ++ bytesOf es := by
  rcases h with hfour | rfl
  · have hcount : 6 * (ds ++ es).length / 8 = 3 + 6 * es.length / 8 := by
      rw [List.length_append]
      omega
    have hfill : 6 * (ds.map fun i : Fin 64 => (i : ℕ)).length = 8 * 3 := by
      rw [List.length_map, hfour]
    rw [bytesOf, hcount, List.map_append, regroup_append (by decide) hfill, List.map_append, bytesOf,
      bytesOf, hfour]
  · rw [List.append_nil]
    exact (List.append_nil _).symm

/-- The digits of characters, if all of them have one. -/
theorem map_of_mapM_digit {alphabet : Alphabet} {s : Bytes} {ds : List (Fin 64)}
    (h : s.mapM (digit alphabet) = some ds) : ds.map alphabet = s := by
  induction s generalizing ds with
  | nil =>
    cases h
    rfl
  | cons c s ih =>
    rw [List.mapM_cons] at h
    obtain ⟨i, hi, h⟩ := Option.bind_eq_some_iff.1 h
    obtain ⟨es, hes, h⟩ := Option.bind_eq_some_iff.1 h
    cases h
    rw [List.map_cons, alphabet_of_digit hi, ih hes]

theorem isSome_mapM_digit {alphabet : Alphabet} {s : Bytes} :
    (s.mapM (digit alphabet)).isSome ↔ ∀ c ∈ s, ∃ i, alphabet i = c := by
  induction s with
  | nil => exact iff_of_true rfl (List.forall_mem_nil _)
  | cons c s ih =>
    rw [List.mapM_cons, List.forall_mem_cons, ← ih]
    cases h : digit alphabet c with
    | none =>
      refine iff_of_false (by simp) fun hall => ?_
      obtain ⟨i, hi⟩ := hall.1
      exact digit_eq_none_iff.1 h i hi
    | some i =>
      rw [and_iff_right ⟨i, alphabet_of_digit h⟩]
      cases s.mapM (digit alphabet) <;> simp

namespace Encoding

variable {enc : Encoding}

theorem other_take_lt {data : Bytes} (hdata : ∀ c ∈ data, c < 128) (n : ℕ) :
    ∀ c ∈ enc.other (data.take n), c < 128 :=
  enc.other_lt fun c hc => hdata c (List.mem_of_mem_take hc)

theorem length_groupDigits {group : Bytes} {ds : List (Fin 64)} (h : enc.groupDigits group = some ds) :
    ds.length ≤ group.length := by
  induction group generalizing ds with
  | nil =>
    cases h
    exact le_rfl
  | cons c group ih =>
    rw [groupDigits] at h
    split at h
    · obtain ⟨es, hes, rfl⟩ := Option.map_eq_some_iff.1 h
      exact Nat.succ_le_succ (ih hes)
    · split at h
      · cases h
        exact Nat.zero_le _
      · cases h

/-- One turn of the loop of `decode`. -/
theorem decodeLoop_succ (past : Byte) (fuel : ℕ) (out : Bytes) (outI : ℕ) {data : Bytes}
    (hdata : ∀ c ∈ enc.other (data.take 4), c < 128) (hne : data ≠ []) :
    enc.decodeLoop past (fuel + 1) out outI data = match enc.groupDigits (data.take 4) with
      | some ds => (store out outI (bytesOf ds)).bind fun out =>
          enc.decodeLoop past fuel out (outI + 3) (data.drop 4)
      | none => some none := by
  rw [decodeLoop, if_neg hne, decodeTriplet_eq past hdata]
  cases hds : enc.groupDigits (data.take 4) with
  | some ds =>
    have hle : ds.length ≤ 4 := (length_groupDigits hds).trans (List.length_take_le 4 data)
    dsimp only
    rw [valueBytes_digitsValue hle]
    cases store out outI (bytesOf ds) <;> rfl
  | none => rfl

/-- One turn of the loop, over zeros that the bytes of the group fit in. -/
theorem decodeLoop_group (past : Byte) (fuel : ℕ) (out : Bytes) {data : Bytes}
    (hdata : ∀ c ∈ enc.other (data.take 4), c < 128) (hne : data ≠ []) {ds : List (Fin 64)}
    (hds : enc.groupDigits (data.take 4) = some ds) (k : ℕ) :
    enc.decodeLoop past (fuel + 1) (out ++ List.replicate ((bytesOf ds).length + k) 0) out.length data =
      enc.decodeLoop past fuel (out ++ bytesOf ds ++ List.replicate k 0) (out.length + 3)
        (data.drop 4) := by
  have hstore := store_append out (List.replicate (bytesOf ds).length 0) (List.replicate k 0)
    (e := bytesOf ds) (by simp)
  rw [decodeLoop_succ past fuel _ _ hdata hne, hds]
  dsimp only
  rw [List.replicate_add, hstore, Option.bind_some, ← List.append_assoc]

/-- Without padding, every character has to be one of the alphabet. -/
theorem groupDigits_unpadded (hpad : enc.padchar = 0) (group : Bytes) :
    enc.groupDigits group = group.mapM (digit enc.encoder) := by
  induction group with
  | nil => rfl
  | cons c group ih =>
    rw [groupDigits, List.mapM_cons, ih]
    cases digit enc.encoder c with
    | none => exact if_neg fun h => h.1 hpad
    | some i => cases group.mapM (digit enc.encoder) <;> rfl

/-- Without padding, the loop decodes the digits of the characters, if all have one. -/
theorem decodeLoop_unpadded (hpad : enc.padchar = 0) (past : Byte) {data : Bytes}
    (hdata : ∀ c ∈ data, c < 128) (out : Bytes) {fuel : ℕ} (hfuel : data.length < fuel) :
    enc.decodeLoop past fuel (out ++ List.replicate (6 * data.length / 8) 0) out.length data =
      some ((data.mapM (digit enc.encoder)).map (out ++ bytesOf ·)) := by
  induction fuel generalizing data out with
  | zero => exact absurd hfuel (Nat.not_lt_zero _)
  | succ fuel ih =>
    by_cases hne : data = []
    · subst hne
      rw [decodeLoop, if_pos rfl]
      rfl
    have hpos := List.length_pos_iff.2 hne
    have hlen : (data.take 4).length + (data.drop 4).length = data.length := by
      rw [← List.length_append, List.take_append_drop]
    have hmapM : data.mapM (digit enc.encoder) = ((data.take 4).mapM (digit enc.encoder)).bind
        fun ds => ((data.drop 4).mapM (digit enc.encoder)).map (ds ++ ·) := by
      conv_lhs => rw [← List.take_append_drop 4 data, List.mapM_append]
      cases (data.take 4).mapM (digit enc.encoder) with
      | none => rfl
      | some ds => cases (data.drop 4).mapM (digit enc.encoder) <;> rfl
    rw [hmapM]
    cases hds : (data.take 4).mapM (digit enc.encoder) with
    | none =>
      rw [decodeLoop_succ past fuel _ _ (other_take_lt hdata 4) hne, groupDigits_unpadded hpad, hds]
      rfl
    | some ds =>
      have hdslen := congrArg List.length (map_of_mapM_digit hds)
      have hbytes := length_bytesOf ds
      rw [List.length_map, List.length_take] at hdslen
      have hsize : 6 * data.length / 8 = (bytesOf ds).length + 6 * (data.drop 4).length / 8 := by
        rw [List.length_drop]
        omega
      rw [hsize, decodeLoop_group past fuel out (other_take_lt hdata 4) hne
        ((groupDigits_unpadded hpad _).trans hds), Option.bind_some]
      by_cases hfour : 4 ≤ data.length
      · have hout : out.length + 3 = (out ++ bytesOf ds).length := by
          rw [List.length_append]
          omega
        rw [hout, ih (fun c hc => hdata c (List.mem_of_mem_drop hc)) _
          (by rw [List.length_drop]; omega), Option.map_map]
        congr 2
        funext es
        rw [Function.comp_apply, bytesOf_append (.inl (by omega)), List.append_assoc]
      · -- the last group: the next turn finds the end
        obtain ⟨fuel, rfl⟩ := Nat.exists_eq_succ_of_ne_zero (by omega : fuel ≠ 0)
        rw [List.drop_eq_nil_of_le (by omega), decodeLoop, if_pos rfl]
        simp

end Encoding

/-- Without padding, `decode` gives a value if and only if all characters are in the alphabet: the
    bytes that are complete in the string of the bits of their digits. -/
theorem decode_unpadded (alphabet : Alphabet) (hinj : Function.Injective alphabet)
    (hascii : ∀ i, alphabet i < 128) (s : Bytes) (hs : ∀ c ∈ s, c < 128) (hlen : s.length < 2 ^ 60)
    (past : Byte) :
    ∃ enc o, encoding alphabet 0 = some enc ∧ enc.decode past s = some o ∧
      (o.isSome ↔ ∀ c ∈ s, ∃ i, alphabet i = c) ∧
      ∀ v ∈ o, ∀ ds : List (Fin 64), ds.map alphabet = s → v = bytesOf ds := by
  obtain ⟨enc, henc, rfl, hpad⟩ := encoding_eq_some hascii 0
  have hsize : decodedSize s.length (enc.padchar != 0) = 6 * s.length / 8 := by
    rw [hpad, bne_self_eq_false, decodedSize, if_neg Bool.false_ne_true]
    omega
  have hloop := Encoding.decodeLoop_unpadded hpad past hs [] (Nat.lt_succ_self s.length)
  have hdecode : enc.decode past s = some ((s.mapM (digit enc.encoder)).map ([] ++ bytesOf ·)) := by
    rw [Encoding.decode]
    dsimp only
    rw [if_neg (not_not_intro hpad), hsize]
    exact hloop
  refine ⟨enc, _, henc, hdecode, ?_, fun v hv ds hds => ?_⟩
  · rw [Option.isSome_map, isSome_mapM_digit]
  · obtain ⟨es, hes, rfl⟩ := Option.map_eq_some_iff.1 hv
    rw [List.nil_append, hinj.list_map (hds.trans (map_of_mapM_digit hes).symm)]

/-- Six characters in the standard alphabet, without padding: four bytes. -/
theorem decode_unpadded_six :
    ∃ enc, encoding standardAlphabet 0 = some enc ∧
      enc.decode 0 (sv "YWJjZA") = some (some (sv "abcd")) := by
  obtain ⟨enc, o, henc, hdecode, hsome, hvalue⟩ := decode_unpadded standardAlphabet
    standardAlphabet_injective (by decide +kernel) (sv "YWJjZA") (by decide) (by decide) 0
  obtain ⟨v, rfl⟩ := Option.isSome_iff_exists.1 (hsome.2 (by decide +kernel))
  have hv := hvalue v rfl [24, 22, 9, 35, 25, 0] (by decide +kernel)
  have hbytes : bytesOf [24, 22, 9, 35, 25, 0] = sv "abcd" := by decide +kernel
  exact ⟨enc, henc, by rw [hdecode, hv, hbytes]⟩

end Cppnet.Base64
