import Cppnet.Encoding.BitString

/-!
# What Base64 decoding reads

What `decode` reads, one access after the other (`decodeReads`): the last two characters of the text,
the characters of each group, the entries of the decode map for them, and the characters that the loop
over the padding looks at. If all of them are inside of the text and of the map, then what is in memory
behind the text does not matter (`decode_eq_of_inside`).

On the texts of `encode`, that is so where none of them is padding to `decode` (`decode_reads_iff`):

* the last two characters are looked at also where there are none, in the text of no data;
* the loop over the padding reads the character behind the last one before it sees that it is at the
  end, and so behind a text that ends in padding;
* a padding character of eight bits is looked up outside of the decode map.
-/

namespace Cppnet.Base64

open Lib

/-- An access to what is decoded, or to the decode map. -/
inductive Access
  /-- The sub-span of the last characters. -/
  | last (n : ℕ)
  /-- A character. -/
  | char (i : ℕ)
  /-- An entry of the decode map. -/
  | entry (i : ℕ)
  deriving DecidableEq

/-- The access is one inside of a text of the given length, or of the decode map. -/
def Access.Inside (length : ℕ) : Access → Prop
  | .last n => n ≤ length
  | .char i => i < length
  | .entry i => i < 256

theorem Access.Inside.mono {length length' : ℕ} (h : length ≤ length') {a : Access}
    (ha : a.Inside length) : a.Inside length' := by
  cases a with
  | last n => exact Nat.le_trans ha h
  | char i => exact Nat.lt_of_lt_of_le ha h
  | entry i => exact ha

namespace Encoding

variable (enc : Encoding)

/-- What the loop of `decode_triplet` that skips padding reads, where the group starts at `inI`. -/
def skipReads (padchar past : Byte) (data : Bytes) (inI : ℕ) : ℕ → ℕ → Byte → List Access
  | 0, _, _ => []
  | n + 1, i, c =>
    if c = padchar then
      .char (inI + (i + 1)) :: skipReads padchar past data inI n (i + 1) (data.getD (i + 1) past)
    else []

/-- What the loop of `decode_triplet` reads. -/
def lookaheadReads (past : Byte) (data : Bytes) (inI : ℕ) : ℕ → ℕ → List Access
  | 0, _ => []
  | n + 1, i =>
    let c := data.getD i past
    .char (inI + i) :: .entry (index c) ::
      match lookup enc.decoder c with
      | none => []
      | some dec =>
        if dec = 0xff then
          if enc.padchar ≠ 0 then skipReads enc.padchar past data inI (n + 1) i c else []
        else lookaheadReads past data inI n (i + 1)

/-- What the loop of `decode` reads, from the position `inI` on. It goes on behind a group that
    `decode_triplet` finds valid. -/
def loopReads (past : Byte) : ℕ → ℕ → Bytes → List Access
  | 0, _, _ => []
  | fuel + 1, inI, data =>
    if data = [] then []
    else
      enc.lookaheadReads past data inI (min data.length 4) 0 ++
        match enc.lookahead past data (min data.length 4) 0 [] with
        | none => []
        | some (i, _) =>
          if i < min data.length 4 then [] else loopReads past fuel (inI + 4) (data.drop 4)

/-- What `decode` reads, up to the last two characters if there are fewer, or up to the exception if
    the vector is too large. -/
def decodeReads (past : Byte) (data : Bytes) : List Access :=
  let outSize := decodedSize data.length (enc.padchar != 0)
  if enc.padchar ≠ 0 then
    .last 2 ::
      if data.length < 2 then []
      else
        let padding := (data.drop (data.length - 2)).count enc.padchar
        let outSize := (outSize + 2 ^ 64 - padding) % 2 ^ 64
        .char (data.length - 2) :: .char (data.length - 1) ::
          if 2 ^ 63 ≤ outSize then [] else enc.loopReads past (data.length + 1) 0 data
  else enc.loopReads past (data.length + 1) 0 data

variable {enc}

/-! ## What is behind the text -/

/-- Inside of the data, the character behind it is not read. -/
theorem getD_eq_of_lt {data : Bytes} {i : ℕ} (h : i < data.length) (past past' : Byte) :
    data.getD i past = data.getD i past' := by
  rw [List.getD_eq_getElem _ _ h, List.getD_eq_getElem _ _ h]

theorem skipPadding_congr {padchar past past' : Byte} {data : Bytes} {inI n i : ℕ} {c : Byte}
    (h : ∀ a ∈ skipReads padchar past data inI n i c, a.Inside (inI + data.length)) :
    skipPadding padchar past data n i c = skipPadding padchar past' data n i c := by
  induction n generalizing i c with
  | zero => rfl
  | succ n ih =>
    rw [skipReads] at h
    rw [skipPadding, skipPadding]
    split
    · next hc =>
      rw [if_pos hc, List.forall_mem_cons] at h
      have hlt : i + 1 < data.length := Nat.lt_of_add_lt_add_left h.1
      rw [ih h.2, getD_eq_of_lt hlt past past']
    · rfl

theorem lookahead_congr {past past' : Byte} {data : Bytes} {inI n i : ℕ} {buf : Bytes}
    (h : ∀ a ∈ enc.lookaheadReads past data inI n i, a.Inside (inI + data.length)) :
    enc.lookahead past data n i buf = enc.lookahead past' data n i buf := by
  induction n generalizing i buf with
  | zero => rfl
  | succ n ih =>
    rw [lookaheadReads, List.forall_mem_cons, List.forall_mem_cons] at h
    obtain ⟨hchar, -, hrest⟩ := h
    have hlt : i < data.length := Nat.lt_of_add_lt_add_left hchar
    rw [lookahead, lookahead, getD_eq_of_lt hlt past' past]
    cases hlookup : lookup enc.decoder (data.getD i past) with
    | none => rfl
    | some dec =>
      rw [hlookup] at hrest
      dsimp only at hrest
      simp only [Option.bind_eq_bind, Option.bind_some]
      by_cases hdec : dec = 0xff
      · rw [if_pos hdec] at hrest ⊢
        rw [if_pos hdec]
        by_cases hpad : enc.padchar ≠ 0
        · rw [if_pos hpad] at hrest
          rw [if_pos hpad, if_pos hpad, skipPadding_congr hrest]
        · rw [if_neg hpad, if_neg hpad]
      · rw [if_neg hdec] at hrest ⊢
        rw [if_neg hdec]
        exact ih hrest

theorem decodeLoop_congr {past : Byte} (past' : Byte) {fuel : ℕ} (inI : ℕ) {out : Bytes} {outI : ℕ}
    {data : Bytes}
    (h : ∀ a ∈ enc.loopReads past fuel inI data, a.Inside (inI + data.length)) :
    enc.decodeLoop past fuel out outI data = enc.decodeLoop past' fuel out outI data := by
  induction fuel generalizing inI out outI data with
  | zero => rfl
  | succ fuel ih =>
    rw [decodeLoop, decodeLoop]
    split
    · rfl
    · next hne =>
      rw [loopReads, if_neg hne, List.forall_mem_append] at h
      have htriplet : enc.decodeTriplet past out outI data = enc.decodeTriplet past' out outI data := by
        rw [decodeTriplet, decodeTriplet, lookahead_congr h.1]
      rw [← htriplet]
      rcases hresult : enc.decodeTriplet past out outI data with _ | _ | out'
      · rfl
      · rfl
      · -- the group was valid, and what is read behind it is inside
        dsimp only
        rw [decodeTriplet] at hresult
        obtain ⟨⟨i, buf⟩, hlook, hresult⟩ := Option.bind_eq_some_iff.1 hresult
        dsimp only at hresult
        split at hresult
        · cases hresult
        · next hvalid =>
          have hrest := h.2
          rw [hlook] at hrest
          dsimp only at hrest
          rw [if_neg hvalid] at hrest
          refine ih (inI + 4) fun a ha => (hrest a ha).mono ?_
          rw [List.length_drop]
          omega

/-- If all that `decode` reads is inside, the result does not depend on what is behind the text. -/
theorem decode_eq_of_inside {past past' : Byte} {data : Bytes}
    (h : ∀ a ∈ enc.decodeReads past data, a.Inside data.length) :
    enc.decode past data = enc.decode past' data := by
  have hloop : (∀ a ∈ enc.loopReads past (data.length + 1) 0 data, a.Inside data.length) →
      ∀ out outI, enc.decodeLoop past (data.length + 1) out outI data =
        enc.decodeLoop past' (data.length + 1) out outI data := by
    intro hreads out outI
    refine decodeLoop_congr past' 0 fun a ha => ?_
    rw [Nat.zero_add]
    exact hreads a ha
  rw [decodeReads] at h
  rw [decode, decode]
  dsimp only at h ⊢
  split
  · next hpad =>
    rw [if_pos hpad, List.forall_mem_cons] at h
    split
    · rfl
    · next htwo =>
      rw [if_neg htwo, List.forall_mem_cons, List.forall_mem_cons] at h
      split
      · rfl
      · next hsize =>
        rw [if_neg hsize] at h
        exact hloop h.2.2.2 _ _
  · next hpad =>
    rw [if_neg hpad] at h
    exact hloop h _ _

/-! ## Reads inside -/

/-- A character of the alphabet is read and looked up, and then the next one. -/
theorem lookaheadReads_digit {past : Byte} {data : Bytes} {k : ℕ} {i : Fin 64}
    (hchar : data.getD k past = enc.encoder i) (inI n : ℕ) :
    enc.lookaheadReads past data inI (n + 1) k =
      .char (inI + k) :: .entry (index (enc.encoder i)) ::
        enc.lookaheadReads past data inI n (k + 1) := by
  rw [lookaheadReads, hchar, enc.lookup_decoder (enc.encoder_lt i)]
  cases hdigit : digit enc.encoder (enc.encoder i) with
  | none => exact absurd rfl (digit_eq_none_iff.1 hdigit i)
  | some j =>
    dsimp only [Option.map_some, Option.getD_some]
    rw [if_neg (ofNat_digit_ne j)]

/-- Characters of the alphabet are read where they are, and looked up inside of the map. -/
theorem lookaheadReads_inside (past : Byte) {group : Bytes}
    (hgroup : ∀ c ∈ group, ∃ i, enc.encoder i = c) (pre rest : Bytes) (inI : ℕ) :
    ∀ a ∈ enc.lookaheadReads past (pre ++ (group ++ rest)) inI group.length pre.length,
      a.Inside (inI + (pre ++ (group ++ rest)).length) := by
  induction group generalizing pre with
  | nil => exact List.forall_mem_nil _
  | cons c group ih =>
    rw [List.forall_mem_cons] at hgroup
    obtain ⟨⟨i, rfl⟩, hgroup⟩ := hgroup
    have hchar : (pre ++ (enc.encoder i :: group ++ rest)).getD pre.length past = enc.encoder i := by
      simp
    have hpre : pre ++ [enc.encoder i] ++ (group ++ rest) = pre ++ (enc.encoder i :: group ++ rest) := by
      simp
    have hlen : (pre ++ [enc.encoder i]).length = pre.length + 1 := by simp
    have hrest := ih hgroup (pre ++ [enc.encoder i])
    rw [hpre, hlen] at hrest
    rw [List.length_cons, lookaheadReads_digit hchar]
    refine List.forall_mem_cons.2 ⟨?_, List.forall_mem_cons.2 ⟨?_, hrest⟩⟩
    · change _ < _
      simp
    · exact (index_lt_iff _).2 (enc.encoder_lt i)

theorem loopReads_nil (past : Byte) (fuel inI : ℕ) : enc.loopReads past fuel inI [] = [] := by
  cases fuel with
  | zero => rfl
  | succ fuel => rw [loopReads, if_pos rfl]

/-- A text of characters of the alphabet is read where it is. -/
theorem loopReads_inside (past : Byte) (fuel : ℕ) {data : Bytes}
    (hdata : ∀ c ∈ data, ∃ i, enc.encoder i = c) (inI : ℕ) :
    ∀ a ∈ enc.loopReads past fuel inI data, a.Inside (inI + data.length) := by
  induction fuel generalizing data inI with
  | zero => exact List.forall_mem_nil _
  | succ fuel ih =>
    rw [loopReads]
    split
    · exact List.forall_mem_nil _
    · have hgroup := lookaheadReads_inside past
        (fun c hc => hdata c (List.mem_of_mem_take (i := 4) hc)) [] (data.drop 4) inI
      rw [List.nil_append, List.take_append_drop, List.length_take, Nat.min_comm, List.length_nil]
        at hgroup
      refine List.forall_mem_append.2 ⟨hgroup, ?_⟩
      split
      · exact List.forall_mem_nil _
      · split
        · exact List.forall_mem_nil _
        · by_cases hfour : 4 ≤ data.length
          · have hrest := ih (fun c hc => hdata c (List.mem_of_mem_drop (i := 4) hc)) (inI + 4)
            rwa [List.length_drop, Nat.add_assoc, Nat.add_sub_cancel' hfour] at hrest
          · rw [List.drop_eq_nil_of_le (by omega), loopReads_nil]
            exact List.forall_mem_nil _

/-! ## Reads outside -/

/-- The loop over the padding reads up to behind the data, if that is padding up to its end. -/
theorem mem_skipReads (padchar past : Byte) (pre : Bytes) (inI n : ℕ) :
    .char (inI + (pre.length + (n + 1))) ∈
      skipReads padchar past (pre ++ List.replicate (n + 1) padchar) inI (n + 1) pre.length padchar := by
  induction n generalizing pre with
  | zero =>
    rw [skipReads, if_pos rfl]
    exact List.mem_cons_self
  | succ n ih =>
    have hchar : (pre ++ List.replicate (n + 2) padchar).getD (pre.length + 1) past = padchar := by
      simp [List.replicate_succ]
    have hpre : pre ++ [padchar] ++ List.replicate (n + 1) padchar =
        pre ++ List.replicate (n + 2) padchar := by simp [List.replicate_succ]
    have hend : (pre ++ [padchar]).length + (n + 1) = pre.length + (n + 2) := by
      rw [List.length_append, List.length_singleton]
      omega
    have hrest := ih (pre ++ [padchar])
    rw [hpre, hend, List.length_append, List.length_singleton] at hrest
    rw [skipReads, if_pos rfl, hchar]
    exact List.mem_cons_of_mem _ hrest

/-- A last group that ends in padding is read up to behind its end, or else looked up outside of the
    decode map. -/
theorem lookaheadReads_outside (hpad : enc.padchar ≠ 0) (hout : ∀ i, enc.encoder i ≠ enc.padchar)
    (past : Byte) {chars : Bytes} (hchars : ∀ c ∈ chars, ∃ i, enc.encoder i = c) (n : ℕ) (pre : Bytes)
    (inI : ℕ) :
    ∃ a ∈ enc.lookaheadReads past (pre ++ (chars ++ List.replicate (n + 1) enc.padchar)) inI
        (chars.length + (n + 1)) pre.length,
      ¬a.Inside (inI + (pre ++ (chars ++ List.replicate (n + 1) enc.padchar)).length) := by
  induction chars generalizing pre with
  | nil =>
    have hchar : (pre ++ List.replicate (n + 1) enc.padchar).getD pre.length past = enc.padchar := by
      simp [List.replicate_succ]
    rw [List.nil_append, List.length_nil, Nat.zero_add, lookaheadReads, hchar]
    by_cases hlt : enc.padchar < 128
    · rw [enc.lookup_decoder hlt, digit_eq_none_iff.2 hout]
      dsimp only [Option.map_none, Option.getD_none]
      rw [if_pos rfl, if_pos hpad]
      refine ⟨_, List.mem_cons_of_mem _ (List.mem_cons_of_mem _
        (mem_skipReads enc.padchar past pre inI n)), ?_⟩
      change ¬_ < _
      simp
    · exact ⟨_, List.mem_cons_of_mem _ List.mem_cons_self, mt (index_lt_iff _).1 hlt⟩
  | cons c chars ih =>
    rw [List.forall_mem_cons] at hchars
    obtain ⟨⟨i, rfl⟩, hchars⟩ := hchars
    have hchar : (pre ++ (enc.encoder i :: chars ++ List.replicate (n + 1) enc.padchar)).getD pre.length
        past = enc.encoder i := by simp
    have hpre : pre ++ [enc.encoder i] ++ (chars ++ List.replicate (n + 1) enc.padchar) =
        pre ++ (enc.encoder i :: chars ++ List.replicate (n + 1) enc.padchar) := by simp
    have hlen : (pre ++ [enc.encoder i]).length = pre.length + 1 := by simp
    obtain ⟨a, ha, hnot⟩ := ih hchars (pre ++ [enc.encoder i])
    rw [hpre] at ha hnot
    rw [hlen] at ha
    refine ⟨a, ?_, hnot⟩
    rw [List.length_cons, Nat.succ_add, lookaheadReads_digit hchar]
    exact List.mem_cons_of_mem _ (List.mem_cons_of_mem _ ha)

/-- A group of characters of the alphabet is valid, and what is behind it is read. -/
theorem loopReads_digits (hout : ∀ i, enc.encoder i ≠ enc.padchar) (past : Byte) {chars : Bytes}
    (hchars : ∀ c ∈ chars, ∃ i, enc.encoder i = c) (hfour : 4 ≤ chars.length) (rest : Bytes)
    (fuel inI : ℕ) :
    enc.loopReads past (fuel + 1) inI (chars ++ rest) =
      enc.lookaheadReads past (chars ++ rest) inI 4 0 ++
        enc.loopReads past fuel (inI + 4) (chars.drop 4 ++ rest) := by
  have hgroup : ∀ c ∈ chars.take 4, ∃ i, enc.encoder i = c :=
    fun c hc => hchars c (List.mem_of_mem_take hc)
  obtain ⟨ds, hds⟩ := Option.isSome_iff_exists.1 (isSome_mapM_digit.2 hgroup)
  have hdigits := groupDigits_append (fun _ => hout) hds 0
  rw [padding_zero, List.append_nil] at hdigits
  have hascii : ∀ c ∈ chars.take 4, c < 128 := by
    intro c hc
    obtain ⟨i, rfl⟩ := hgroup c hc
    exact enc.encoder_lt i
  have hlook := enc.lookahead_group past (enc.other_lt hascii) [] (chars.drop 4 ++ rest) []
  rw [hdigits, ← List.append_assoc (chars.take 4), List.take_append_drop, List.nil_append,
    List.length_take, Nat.min_eq_left hfour, List.length_nil, Nat.zero_add] at hlook
  have hlen : 4 ≤ (chars ++ rest).length := by
    rw [List.length_append]
    omega
  rw [loopReads, if_neg (List.length_pos_iff.1 (by omega)), Nat.min_eq_right hlen, hlook]
  dsimp only
  rw [if_neg (lt_irrefl 4), List.drop_append_of_le_length hfour]

/-- A text that ends in padding is read outside of it, or of the decode map. -/
theorem loopReads_outside (hpad : enc.padchar ≠ 0) (hout : ∀ i, enc.encoder i ≠ enc.padchar)
    (past : Byte) {chars : Bytes} (hchars : ∀ c ∈ chars, ∃ i, enc.encoder i = c) {n : ℕ} (hn : n < 3)
    (hdvd : 4 ∣ chars.length + (n + 1)) {fuel : ℕ} (hfuel : chars.length + (n + 1) < fuel) (inI : ℕ) :
    ∃ a ∈ enc.loopReads past fuel inI (chars ++ List.replicate (n + 1) enc.padchar),
      ¬a.Inside (inI + (chars.length + (n + 1))) := by
  induction fuel generalizing chars inI with
  | zero => exact absurd hfuel (Nat.not_lt_zero _)
  | succ fuel ih =>
    by_cases hfour : 4 ≤ chars.length
    · rw [loopReads_digits hout past hchars hfour]
      obtain ⟨a, ha, hnot⟩ := ih (fun c hc => hchars c (List.mem_of_mem_drop (i := 4) hc))
        (by rw [List.length_drop]; omega) (by rw [List.length_drop]; omega) (inI + 4)
      refine ⟨a, List.mem_append_right _ ha, ?_⟩
      rw [List.length_drop] at hnot
      convert hnot using 2
      omega
    · -- the last group
      have hlen : (chars ++ List.replicate (n + 1) enc.padchar).length = chars.length + (n + 1) := by simp
      obtain ⟨a, ha, hnot⟩ := lookaheadReads_outside hpad hout past hchars n [] inI
      rw [List.nil_append, List.length_nil] at ha
      rw [List.nil_append, hlen] at hnot
      rw [loopReads, if_neg (List.length_pos_iff.1 (by omega)), hlen, Nat.min_eq_left (by omega)]
      exact ⟨a, List.mem_append_left _ ha, hnot⟩

/-- With padding, the last two characters are looked at in any text. -/
theorem last_mem_decodeReads (hpad : enc.padchar ≠ 0) (past : Byte) (data : Bytes) :
    .last 2 ∈ enc.decodeReads past data := by
  rw [decodeReads, if_pos hpad]
  exact List.mem_cons_self

/-- In a text of a group or more, they are read, and then the groups. -/
theorem decodeReads_padded (hpad : enc.padchar ≠ 0) (past : Byte) {data : Bytes} (hlen : 4 ≤ data.length)
    (hmax : data.length < 2 ^ 63) :
    enc.decodeReads past data = .last 2 :: .char (data.length - 2) :: .char (data.length - 1) ::
      enc.loopReads past (data.length + 1) 0 data := by
  have hcount := count_last_le enc.padchar data
  have hsize : data.length / 4 * 3 % 2 ^ 64 = data.length / 4 * 3 := Nat.mod_eq_of_lt (by omega)
  have hwrap : data.length / 4 * 3 + 2 ^ 64 - (data.drop (data.length - 2)).count enc.padchar =
      data.length / 4 * 3 - (data.drop (data.length - 2)).count enc.padchar + 2 ^ 64 := by omega
  rw [decodeReads]
  dsimp only
  rw [if_pos hpad, if_neg (by omega), if_neg]
  rw [decodedSize, if_pos (bne_iff_ne.2 hpad), hsize, hwrap, Nat.add_mod_right]
  omega

theorem exists_encoder_of_mem_map {ds : List (Fin 64)} :
    ∀ c ∈ ds.map enc.encoder, ∃ i, enc.encoder i = c := by
  intro c hc
  obtain ⟨i, -, hi⟩ := List.mem_map.1 hc
  exact ⟨i, hi⟩

/-- Padding that is not in the text, or that is in the alphabet, leaves a text of characters of the
    alphabet. -/
theorem exists_encoder_of_mem_text {d : Bytes}
    (h : enc.padchar = 0 ∨ 3 ∣ d.length ∨ ∃ i, enc.encoder i = enc.padchar) :
    ∀ c ∈ enc.text d, ∃ i, enc.encoder i = c := by
  intro c hc
  rw [text_eq, List.mem_append] at hc
  rcases hc with hc | hc
  · exact exists_encoder_of_mem_map c hc
  · rw [padding] at hc
    split at hc
    · next hpad =>
      obtain ⟨hne, rfl⟩ := List.mem_replicate.1 hc
      exact (h.resolve_left hpad).resolve_left (by omega)
    · cases hc

/-- The text of data that does not fill its blocks ends in padding. -/
theorem loopReads_text_outside (hpad : enc.padchar ≠ 0) (hout : ∀ i, enc.encoder i ≠ enc.padchar)
    (past : Byte) {d : Bytes} (hdvd : ¬3 ∣ d.length) :
    ∃ a ∈ enc.loopReads past ((enc.text d).length + 1) 0 (enc.text d), ¬a.Inside (enc.text d).length := by
  have htext := text_eq enc d
  have hsucc : (3 - d.length % 3) % 3 = 2 - d.length % 3 + 1 := by omega
  rw [padding, if_pos hpad, hsucc] at htext
  have hlen := congrArg List.length htext
  rw [List.length_append, List.length_replicate] at hlen
  have hfour : 4 ∣ (enc.text d).length := by
    rw [length_text_eq, if_pos hpad]
    exact Nat.dvd_mul_left 4 _
  obtain ⟨a, ha, hnot⟩ := loopReads_outside hpad hout past exists_encoder_of_mem_map
    (by omega : 2 - d.length % 3 < 3) (hlen ▸ hfour) (Nat.lt_succ_self _) 0
  rw [← hlen, Nat.zero_add] at hnot
  rw [← htext, ← hlen] at ha
  exact ⟨a, ha, hnot⟩

end Encoding

/-- `decode` reads only what is inside of a text of `encode`, and of the decode map, if and only if
    there is no padding character, or else if there is data, and it fills its blocks or the padding
    character is one of the alphabet. -/
theorem decode_reads_iff (enc : Encoding) (d text : Bytes) (hencode : enc.encode d = some text)
    (hmax : text.length < 2 ^ 63) (past : Byte) :
    (∀ a ∈ enc.decodeReads past text, a.Inside text.length) ↔
      enc.padchar = 0 ∨ d ≠ [] ∧ (3 ∣ d.length ∨ ∃ i, enc.encoder i = enc.padchar) := by
  obtain rfl := Encoding.text_of_encode hencode
  have hloop : (enc.padchar = 0 ∨ 3 ∣ d.length ∨ ∃ i, enc.encoder i = enc.padchar) →
      ∀ a ∈ enc.loopReads past ((enc.text d).length + 1) 0 (enc.text d), a.Inside (enc.text d).length := by
    intro h a ha
    have hinside := Encoding.loopReads_inside past _ (Encoding.exists_encoder_of_mem_text h) 0 a ha
    rwa [Nat.zero_add] at hinside
  by_cases hpad : enc.padchar = 0
  · refine iff_of_true ?_ (.inl hpad)
    rw [Encoding.decodeReads, if_neg (not_not.2 hpad)]
    exact hloop (.inl hpad)
  rw [or_iff_right hpad]
  by_cases hd : d = []
  · -- there are no last two characters
    subst hd
    refine iff_of_false (fun h => ?_) (fun h => h.1 rfl)
    have hlast := h (.last 2) (Encoding.last_mem_decodeReads hpad past _)
    exact absurd hlast (by simp [Access.Inside, Encoding.text])
  have hpos := List.length_pos_iff.2 hd
  have hlen := Encoding.length_text_eq enc d
  rw [if_pos hpad] at hlen
  rw [Encoding.decodeReads_padded hpad past (by omega) hmax, and_iff_right hd]
  by_cases hin : 3 ∣ d.length ∨ ∃ i, enc.encoder i = enc.padchar
  · refine iff_of_true (List.forall_mem_cons.2 ⟨?_, List.forall_mem_cons.2 ⟨?_,
      List.forall_mem_cons.2 ⟨?_, hloop (.inr hin)⟩⟩⟩) hin
    · change 2 ≤ _
      omega
    · change _ < _
      omega
    · change _ < _
      omega
  · -- the last group ends in padding
    refine iff_of_false (fun h => ?_) hin
    rw [not_or, not_exists] at hin
    obtain ⟨a, ha, hnot⟩ := Encoding.loopReads_text_outside hpad hin.2 past hin.1
    exact hnot (h a (by simp [ha]))

/-- A full block in the standard alphabet is read where it is. -/
theorem decode_reads_iff_three :
    ∃ enc text, encoding standardAlphabet (ch '=') = some enc ∧ enc.encode (sv "abc") = some text ∧
      ∀ a ∈ enc.decodeReads 0 text, a.Inside text.length := by
  obtain ⟨enc, henc, -, -⟩ := encoding_eq_some standardAlphabet_lt (ch '=')
  have hencode : enc.encode (sv "abc") = some (enc.text (sv "abc")) := Encoding.encode_eq (by decide)
  have hmax : (enc.text (sv "abc")).length < 2 ^ 63 := by
    rw [Encoding.length_text_eq]
    split <;> decide
  exact ⟨enc, _, henc, hencode, (decode_reads_iff enc _ _ hencode hmax 0).2
    (.inr ⟨by decide, .inl (by decide)⟩)⟩

/-- Decoding the text of one byte reads the character behind its end, and decoding the text of no data
    looks at its last two characters. -/
theorem decode_reads_behind :
    ∃ enc, encoding standardAlphabet (ch '=') = some enc ∧
      enc.encode (sv "a") = some (sv "YQ==") ∧ .char 4 ∈ enc.decodeReads 0 (sv "YQ==") ∧
      ¬(Access.char 4).Inside (sv "YQ==").length ∧
      enc.encode [] = some [] ∧ .last 2 ∈ enc.decodeReads 0 [] ∧
      ¬(Access.last 2).Inside ([] : Bytes).length := by
  obtain ⟨enc, henc, -, hpad⟩ := encoding_eq_some standardAlphabet_lt (ch '=')
  have hone : (encoding standardAlphabet (ch '=')).bind (·.encode (sv "a")) = some (sv "YQ==") := by
    decide +kernel
  have hreads : (encoding standardAlphabet (ch '=')).map
      (fun enc => decide (.char 4 ∈ enc.decodeReads 0 (sv "YQ=="))) = some true := by decide +kernel
  have hempty : enc.encode [] = some [] := Encoding.encode_eq (by decide)
  have hlast := enc.last_mem_decodeReads (hpad ▸ by decide) 0 []
  rw [henc, Option.bind_some] at hone
  rw [henc, Option.map_some, Option.some.injEq, decide_eq_true_eq] at hreads
  exact ⟨enc, henc, hone, hreads, lt_irrefl 4, hempty, hlast, by simp [Access.Inside]⟩

end Cppnet.Base64
