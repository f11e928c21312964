import Cppnet.Encoding.BitString

/-!
# Base64 with padding

A text with padding is one of groups of four characters of the alphabet, but for one or two padding
characters in the place of the last ones (`Valid`). `decode` looks for padding twice: among the last
two characters, to compute the size of the output, and behind the digits of each group, where it is
skipped. What it takes is therefore more than the valid texts:

* padding in any group, of which fewer bytes are written, and the zeros of the output stand for the
  rest;
* a shorter group at the end, for which there is no room in the output. It is taken with one digit,
  of which no byte is written. With more, bytes are written outside of the output.

So `decode` keeps to valid texts only where it finds another text out: at a group that is not one of
digits and padding, and that it gets to without writing outside of the output (`decode_padded_iff`).
-/

namespace Cppnet.Base64

open Lib

namespace Encoding

/-- A valid text, of the digits `ds`: groups of four characters, all of the alphabet but for the last
    one or two, which may be padding. -/
def Valid (enc : Encoding) (s : Bytes) (ds : List (Fin 64)) : Prop :=
  4 ∣ s.length ∧ ∃ chars n, n ≤ 2 ∧ s = chars ++ List.replicate n enc.padchar ∧
    chars.mapM (digit enc.encoder) = some ds

/-- A group of four characters. The last one may be shorter. -/
def groupAt (s : Bytes) (j : ℕ) : Bytes := (s.drop (4 * j)).take 4

/-- A group of digits and padding, whose bytes fit in an output of `size` bytes at the offset `o`. -/
def Fits (enc : Encoding) (size o : ℕ) (group : Bytes) : Prop :=
  ∃ ds, enc.groupDigits group = some ds ∧ ((bytesOf ds).length = 0 ∨ o + (bytesOf ds).length ≤ size)

/-- A text with a group that is not one of digits and padding, where the bytes of those before it fit in
    an output of `size` bytes from the offset `o` on. -/
def Refused (enc : Encoding) (size o : ℕ) (s : Bytes) : Prop :=
  ∃ j, 4 * j < s.length ∧ enc.groupDigits (groupAt s j) = none ∧
    ∀ i < j, enc.Fits size (o + 3 * i) (groupAt s i)

variable {enc : Encoding}

theorem groupAt_drop (s : Bytes) (j : ℕ) : groupAt (s.drop 4) j = groupAt s (j + 1) := by
  rw [groupAt, groupAt, List.drop_drop, Nat.mul_add, Nat.add_comm]

/-- Behind a first group of digits and padding, it is one of the rest that is refused. -/
theorem refused_drop_iff {size o : ℕ} {s : Bytes} {ds : List (Fin 64)}
    (hds : enc.groupDigits (groupAt s 0) = some ds) :
    enc.Refused size o s ↔ enc.Fits size o (groupAt s 0) ∧ enc.Refused size (o + 3) (s.drop 4) := by
  rw [Refused, Refused, List.length_drop]
  constructor
  · rintro ⟨j, hj, hnone, hfits⟩
    cases j with
    | zero => exact absurd (hds.symm.trans hnone) (by simp)
    | succ j =>
      refine ⟨hfits 0 (Nat.succ_pos j), j, by omega, groupAt_drop s j ▸ hnone, fun i hi => ?_⟩
      have hi' := hfits (i + 1) (Nat.succ_lt_succ hi)
      rwa [Nat.mul_add, Nat.add_comm (3 * i), ← Nat.add_assoc, ← groupAt_drop] at hi'
  · rintro ⟨hzero, j, hj, hnone, hfits⟩
    refine ⟨j + 1, by omega, groupAt_drop s j ▸ hnone, fun i hi => ?_⟩
    cases i with
    | zero => exact hzero
    | succ i =>
      have hi' := hfits i (Nat.lt_of_succ_lt_succ hi)
      rwa [Nat.mul_add, Nat.add_comm (3 * i), ← Nat.add_assoc, ← groupAt_drop]

/-- The loop refuses a text at a group that is not one of digits and padding, with the bytes of those
    before it within the output. -/
theorem decodeLoop_eq_none_iff (enc : Encoding) (past : Byte) {data : Bytes} (hdata : ∀ c ∈ data, c < 128)
    (out : Bytes) (outI : ℕ) {fuel : ℕ} (hfuel : data.length < fuel) :
    enc.decodeLoop past fuel out outI data = some none ↔ enc.Refused out.length outI data := by
  induction fuel generalizing data out outI with
  | zero => exact absurd hfuel (Nat.not_lt_zero _)
  | succ fuel ih =>
    by_cases hne : data = []
    · subst hne
      rw [decodeLoop, if_pos rfl]
      refine iff_of_false (by simp) ?_
      rintro ⟨j, hj, -⟩
      exact absurd hj (Nat.not_lt_zero _)
    have hpos := List.length_pos_iff.2 hne
    rw [decodeLoop_succ past fuel out outI (other_take_lt hdata 4) hne]
    have hfirst : groupAt data 0 = data.take 4 := rfl
    rw [← hfirst]
    cases hds : enc.groupDigits (groupAt data 0) with
    | none => exact iff_of_true rfl ⟨0, by omega, hds, fun i hi => absurd hi (Nat.not_lt_zero i)⟩
    | some ds =>
      have hspec := store_spec out outI (bytesOf ds)
      dsimp only
      rw [refused_drop_iff hds]
      cases hstore : store out outI (bytesOf ds) with
      | none =>
        rw [hstore] at hspec
        refine iff_of_false (by simp) ?_
        rintro ⟨⟨es, hes, hroom⟩, -⟩
        cases hds.symm.trans hes
        exact hspec hroom
      | some out' =>
        rw [hstore] at hspec
        rw [Option.bind_some, and_iff_right ⟨ds, hds, hspec.1⟩, ← hspec.2]
        exact ih (fun c hc => hdata c (List.mem_of_mem_drop hc)) out' (outI + 3)
          (by rw [List.length_drop]; omega)

/-- The padding of a group is what is not digits. -/
theorem count_add_length (hout : ∀ i, enc.encoder i ≠ enc.padchar) {group : Bytes}
    {ds : List (Fin 64)} (h : enc.groupDigits group = some ds) :
    group.count enc.padchar + ds.length = group.length := by
  induction group generalizing ds with
  | nil =>
    cases h
    rfl
  | cons c group ih =>
    rw [groupDigits] at h
    split at h
    · next i hi =>
      obtain ⟨es, hes, rfl⟩ := Option.map_eq_some_iff.1 h
      have hc : c ≠ enc.padchar := alphabet_of_digit hi ▸ hout i
      have hlen := ih hes
      rw [List.count_cons_of_ne hc, List.length_cons, List.length_cons]
      omega
    · split at h
      · next hpad =>
        cases h
        exact List.count_eq_length.2 fun c' hc' => (hpad.2 c' hc').symm
      · cases h

/-- The digits of characters one after the other. -/
theorem exists_of_mapM_append {chars chars' : Bytes} {ds : List (Fin 64)}
    (h : (chars ++ chars').mapM (digit enc.encoder) = some ds) :
    ∃ es es', chars.mapM (digit enc.encoder) = some es ∧ chars'.mapM (digit enc.encoder) = some es' ∧
      ds = es ++ es' := by
  rw [List.mapM_append] at h
  obtain ⟨es, hes, h⟩ := Option.bind_eq_some_iff.1 h
  obtain ⟨es', hes', h⟩ := Option.bind_eq_some_iff.1 h
  cases h
  exact ⟨es, es', hes, hes', rfl⟩

/-- The loop decodes the digits of a valid text. -/
theorem decodeLoop_padded (hpad : enc.padchar ≠ 0) (hout : ∀ i, enc.encoder i ≠ enc.padchar)
    (past : Byte) {chars : Bytes} {n : ℕ} (hn : n ≤ 2) (hdvd : 4 ∣ chars.length + n)
    (hdata : ∀ c ∈ chars ++ List.replicate n enc.padchar, c < 128) {ds : List (Fin 64)}
    (hds : chars.mapM (digit enc.encoder) = some ds) (out : Bytes) {fuel : ℕ}
    (hfuel : chars.length + n < fuel) :
    enc.decodeLoop past fuel (out ++ List.replicate (6 * ds.length / 8) 0) out.length
        (chars ++ List.replicate n enc.padchar) = some (some (out ++ bytesOf ds)) := by
  induction fuel generalizing chars ds out with
  | zero => exact absurd hfuel (Nat.not_lt_zero _)
  | succ fuel ih =>
    have hlen := congrArg List.length (map_of_mapM_digit hds)
    rw [List.length_map] at hlen
    have hpadding : enc.padding n = List.replicate n enc.padchar := if_pos hpad
    have hbytes := length_bytesOf ds
    have htext : (chars ++ List.replicate n enc.padchar).length = chars.length + n := by simp
    rcases Nat.lt_or_ge 4 (chars.length + n) with hlt | hge
    · -- a group of digits, with the rest of the text behind it
      rw [← List.take_append_drop 4 chars] at hds
      obtain ⟨es, es', hes, hes', rfl⟩ := exists_of_mapM_append hds
      have hfour : es.length = 4 := by
        have heslen := congrArg List.length (map_of_mapM_digit hes)
        rw [List.length_map, List.length_take] at heslen
        omega
      have hgroup : enc.groupDigits ((chars ++ List.replicate n enc.padchar).take 4) = some es := by
        have happend := groupDigits_append (fun _ => hout) hes 0
        rwa [padding_zero, List.append_nil, ← List.take_append_of_le_length (by omega)] at happend
      have hsize : 6 * (es ++ es').length / 8 = (bytesOf es).length + 6 * es'.length / 8 := by
        rw [length_bytesOf, List.length_append]
        omega
      have hlength : out.length + 3 = (out ++ bytesOf es).length := by
        rw [List.length_append, length_bytesOf, hfour]
      have hdrop : (chars ++ List.replicate n enc.padchar).drop 4 =
          chars.drop 4 ++ List.replicate n enc.padchar := List.drop_append_of_le_length (by omega)
      have hdata' := fun c hc => hdata c (List.mem_of_mem_drop (i := 4) hc)
      rw [hdrop] at hdata'
      rw [hsize, decodeLoop_group past fuel out (other_take_lt hdata 4) (List.length_pos_iff.1 (by omega))
          hgroup, hlength, hdrop, ih (by rw [List.length_drop]; omega) hdata' hes' _ (by rw [List.length_drop]; omega),
        bytesOf_append (.inl hfour), List.append_assoc]
    · by_cases hnil : chars.length + n = 0
      · obtain rfl : chars = [] := List.length_eq_zero_iff.1 (by omega)
        obtain rfl : n = 0 := by omega
        cases hds
        rw [List.replicate_zero, List.append_nil, decodeLoop, if_pos rfl]
        rfl
      · -- the last group
        have hgroup : enc.groupDigits ((chars ++ List.replicate n enc.padchar).take 4) = some ds := by
          rw [List.take_of_length_le (by omega), ← hpadding]
          exact groupDigits_append (fun _ => hout) hds n
        have hsize : 6 * ds.length / 8 = (bytesOf ds).length + 0 := hbytes.symm
        obtain ⟨fuel, rfl⟩ := Nat.exists_eq_succ_of_ne_zero (by omega : fuel ≠ 0)
        rw [hsize, decodeLoop_group past _ out (other_take_lt hdata 4) (List.length_pos_iff.1 (by omega))
          hgroup, List.drop_eq_nil_of_le (by omega), decodeLoop, if_pos rfl, List.replicate_zero,
          List.append_nil]

/-- The group of four characters before another one. -/
theorem groupAt_pred (s : Bytes) {j : ℕ} (hj : 0 < j) :
    (s.take (4 * j)).drop (4 * j - 4) = groupAt s (j - 1) := by
  rw [groupAt, List.drop_take, Nat.mul_sub]
  congr 1
  omega

/-- A text is refused, if and only if a group is not one of digits and padding, and is one of four
    characters, or else there are no more padding characters among the last two of the text than in the
    group before. -/
theorem refused_iff (hout : ∀ i, enc.encoder i ≠ enc.padchar) {s : Bytes} (hlen : 2 ≤ s.length)
    {count : ℕ} (hcount : count ≤ 2) :
    count ≤ s.length / 4 * 3 ∧ enc.Refused (s.length / 4 * 3 - count) 0 s ↔
      ∃ j, 4 * j < s.length ∧ enc.groupDigits (groupAt s j) = none ∧
        (4 * j + 4 ≤ s.length ∨ count ≤ ((s.take (4 * j)).drop (4 * j - 4)).count enc.padchar) := by
  have hgroup : ∀ {i ds}, enc.groupDigits (groupAt s i) = some ds → 4 * i + 4 ≤ s.length →
      (groupAt s i).count enc.padchar + ds.length = 4 ∧ (bytesOf ds).length = ds.length - 1 := by
    intro i ds hds hi
    have hadd := count_add_length hout hds
    have hfour : (groupAt s i).length = 4 := by
      rw [groupAt, List.length_take, List.length_drop]
      omega
    rw [length_bytesOf]
    omega
  constructor
  · rintro ⟨hle, j, hj, hnone, hfits⟩
    refine ⟨j, hj, hnone, ?_⟩
    by_cases hfull : 4 * j + 4 ≤ s.length
    · exact .inl hfull
    · right
      rcases Nat.eq_zero_or_pos j with rfl | hpos
      · exact hle.trans (by omega)
      · obtain ⟨ds, hds, hroom⟩ := hfits (j - 1) (by omega)
        obtain ⟨hadd, hbytes⟩ := hgroup hds (by omega)
        rw [groupAt_pred s hpos]
        omega
  · rintro ⟨k, hk, hnone, hlast⟩
    -- the first group that is not one of digits and padding
    have hex : ∃ j, 4 * j < s.length ∧ enc.groupDigits (groupAt s j) = none := ⟨k, hk, hnone⟩
    obtain ⟨hj, hjnone⟩ := Nat.find_spec hex
    have hjk : Nat.find hex ≤ k := Nat.find_min' hex ⟨hk, hnone⟩
    have hbefore : ∀ i < Nat.find hex, ∃ ds, enc.groupDigits (groupAt s i) = some ds := by
      intro i hi
      refine Option.ne_none_iff_exists'.1 fun h => Nat.find_min hex hi ⟨by omega, h⟩
    generalize Nat.find hex = j at hj hjnone hjk hbefore
    refine ⟨?_, j, hj, hjnone, fun i hi => ?_⟩
    · rcases Nat.lt_or_ge s.length 4 with hshort | hge
      · obtain rfl : k = 0 := by omega
        rcases hlast with hfull | hlast
        · omega
        · exact hlast.trans (by simp)
      · omega
    · obtain ⟨ds, hds⟩ := hbefore i hi
      obtain ⟨hadd, hbytes⟩ := hgroup hds (by omega)
      refine ⟨ds, hds, ?_⟩
      by_cases hnext : 4 * j + 4 ≤ s.length ∨ i + 1 < j
      · omega
      · -- the last group of four, before one of fewer that is the first to be refused
        obtain rfl : k = i + 1 := by omega
        rw [groupAt_pred s (Nat.succ_pos i), Nat.succ_sub_one] at hlast
        omega

/-- The padding of a valid text, among its last two characters. -/
theorem count_of_valid (hout : ∀ i, enc.encoder i ≠ enc.padchar) {chars : Bytes} {ds : List (Fin 64)}
    (hds : chars.mapM (digit enc.encoder) = some ds) {n : ℕ} (hn : n ≤ 2) :
    ((chars ++ List.replicate n enc.padchar).drop
      ((chars ++ List.replicate n enc.padchar).length - 2)).count enc.padchar = n := by
  have hnot : enc.padchar ∉ chars := by
    intro hmem
    have hsome : (chars.mapM (digit enc.encoder)).isSome := by rw [hds]; rfl
    obtain ⟨i, hi⟩ := isSome_mapM_digit.1 hsome _ hmem
    exact hout i hi
  have hzero : (chars.drop ((chars ++ List.replicate n enc.padchar).length - 2)).count enc.padchar = 0 :=
    List.count_eq_zero.2 fun hmem => hnot (List.mem_of_mem_drop hmem)
  rw [List.drop_append_of_le_length (by simp; omega), List.count_append, hzero,
    List.count_replicate_self, Nat.zero_add]

/-- `decode` of a text of two characters or more, with padding. -/
theorem decode_of_padded (hpad : enc.padchar ≠ 0) (past : Byte) {s : Bytes} (hlen : 2 ≤ s.length)
    (hmax : s.length < 2 ^ 63) {count : ℕ}
    (hcount : (s.drop (s.length - 2)).count enc.padchar = count) :
    count ≤ 2 ∧ enc.decode past s = if count ≤ s.length / 4 * 3 then
      enc.decodeLoop past (s.length + 1) (List.replicate (s.length / 4 * 3 - count) 0) 0 s else none := by
  have hle : count ≤ 2 := hcount ▸ count_last_le enc.padchar s
  refine ⟨hle, ?_⟩
  have hpadding : (enc.padchar != 0) = true := by simpa using hpad
  rw [decode]
  dsimp only
  rw [if_pos hpad, if_neg (by omega), hcount, hpadding, decodedSize, if_pos rfl]
  split
  · next hwrap => rw [if_neg (by omega)]
  · next hwrap =>
    rw [if_pos (by omega)]
    congr 2
    omega

end Encoding

/-- On a text of two characters or more, with a padding character outside of the alphabet: `decode` comes
    back, and gives a value only for a valid text, the bytes of its digits, if and only if the text is
    valid, or a group of it is not one of characters of the alphabet followed by padding. Where that is
    one of fewer than four characters, there must be no more padding among the last two characters than
    in the group before it. -/
theorem decode_padded_iff (enc : Encoding) (hpad : enc.padchar ≠ 0)
    (hout : ∀ i, enc.encoder i ≠ enc.padchar) (s : Bytes) (hs : ∀ c ∈ s, c < 128)
    (hlen : 2 ≤ s.length) (hmax : s.length < 2 ^ 63) (past : Byte) :
    (∃ o, enc.decode past s = some o ∧ ∀ v ∈ o, ∃ ds, enc.Valid s ds ∧ v = bytesOf ds) ↔
      (∃ ds, enc.Valid s ds) ∨
      ∃ j, 4 * j < s.length ∧ enc.groupDigits (Encoding.groupAt s j) = none ∧
        (4 * j + 4 ≤ s.length ∨ (s.drop (s.length - 2)).count enc.padchar ≤
          ((s.take (4 * j)).drop (4 * j - 4)).count enc.padchar) := by
  obtain ⟨hcount, hdecode⟩ := Encoding.decode_of_padded hpad past hlen hmax rfl
  rw [← Encoding.refused_iff hout hlen hcount, hdecode]
  have hrefused := enc.decodeLoop_eq_none_iff past hs (List.replicate (s.length / 4 * 3 -
    (s.drop (s.length - 2)).count enc.padchar) 0) 0 (Nat.lt_succ_self s.length)
  rw [List.length_replicate] at hrefused
  rw [← hrefused]
  constructor
  · rintro ⟨o, ho, hvalue⟩
    cases o with
    | some v =>
      obtain ⟨ds, hvalid, -⟩ := hvalue v rfl
      exact .inl ⟨ds, hvalid⟩
    | none =>
      split at ho
      · next hle => exact .inr ⟨hle, ho⟩
      · cases ho
  · rintro (⟨ds, hvalid⟩ | ⟨hle, hnone⟩)
    · obtain ⟨hdvd, chars, n, hn, rfl, hds⟩ := hvalid
      have hdslen := congrArg List.length (map_of_mapM_digit hds)
      have hlength : (chars ++ List.replicate n enc.padchar).length = chars.length + n := by simp
      have hloop := Encoding.decodeLoop_padded hpad hout past hn (hlength ▸ hdvd) hs hds []
        (show chars.length + n < (chars ++ List.replicate n enc.padchar).length + 1 by omega)
      rw [List.nil_append, List.nil_append, List.length_nil] at hloop
      rw [List.length_map] at hdslen
      refine ⟨some (bytesOf ds), ?_, fun v hv => ⟨ds, ⟨hdvd, chars, n, hn, rfl, hds⟩, ?_⟩⟩
      · rw [Encoding.count_of_valid hout hds hn, if_pos (by omega), ← hloop]
        congr 2
        omega
      · exact (Option.some.inj hv).symm
    · exact ⟨none, by rw [if_pos hle, hnone], by simp⟩

/-- A text of two digits and two padding characters: one byte. -/
theorem decode_padded_iff_two :
    ∃ enc o, encoding standardAlphabet (ch '=') = some enc ∧ enc.decode 0 (sv "ZA==") = some o ∧
      ∀ v ∈ o, ∃ ds, enc.Valid (sv "ZA==") ds ∧ v = bytesOf ds := by
  obtain ⟨enc, henc, hencoder, hpad⟩ := encoding_eq_some standardAlphabet_lt (ch '=')
  have hvalid : enc.Valid (sv "ZA==") [25, 0] := by
    refine ⟨by decide, sv "ZA", 2, le_rfl, ?_, ?_⟩
    · rw [hpad]
      decide
    · rw [hencoder]
      decide +kernel
  obtain ⟨o, ho, hvalue⟩ := (decode_padded_iff enc (hpad ▸ by decide)
    (hencoder ▸ hpad ▸ standardAlphabet_ne) (sv "ZA==") (by decide) (by decide) (by decide) 0).2
    (.inl ⟨_, hvalid⟩)
  exact ⟨enc, o, henc, ho, hvalue⟩

/-- Padding in a group before the last one is taken: two groups of two digits and two padding
    characters give four bytes. -/
theorem decode_inner_padding :
    ∃ enc, encoding standardAlphabet (ch '=') = some enc ∧
      enc.decode 0 (sv "QQ==QQ==") = some (some [0x41, 0, 0, 0x41]) ∧
      ¬∃ ds, enc.Valid (sv "QQ==QQ==") ds := by
  obtain ⟨enc, henc, hencoder, hpad⟩ := encoding_eq_some standardAlphabet_lt (ch '=')
  have hdecode : (encoding standardAlphabet (ch '=')).bind (·.decode 0 (sv "QQ==QQ==")) =
      some (some [0x41, 0, 0, 0x41]) := by decide +kernel
  rw [henc, Option.bind_some] at hdecode
  refine ⟨enc, henc, hdecode, ?_⟩
  rintro ⟨ds, -, chars, n, hn, heq, hds⟩
  -- the padding of the first group is among the characters
  have hlen := congrArg List.length heq
  rw [List.length_append, List.length_replicate] at hlen
  have hmem : ch '=' ∈ chars := by
    have hlt : 2 < chars.length := by
      have h8 : (sv "QQ==QQ==").length = 8 := by decide
      omega
    have hget : (chars ++ List.replicate n enc.padchar)[2]? = chars[2]? :=
      List.getElem?_append_left hlt
    rw [← heq] at hget
    exact List.mem_of_getElem? (hget.symm.trans (by decide))
  have hsome : (chars.mapM (digit enc.encoder)).isSome := by rw [hds]; rfl
  obtain ⟨i, hi⟩ := isSome_mapM_digit.1 hsome _ hmem
  rw [hencoder] at hi
  exact standardAlphabet_ne i hi

end Cppnet.Base64
