import Cppnet.Encoding.Padding
import Cppnet.Encoding.Reads

/-!
# What Base64 decoding writes

Where `decode` writes to (`decodeWrites`), and what it looks up in the decode map, in any text. The size of
the output is computed before any of the text is looked at, and then every group of characters of the
alphabet, and padding behind them, is written that comes before one that is not (`Inside`). `decode` has a
result if and only if all of that is inside of the output and of the map (`decode_isSome_iff`).

It is not, in general (`decode_inside_iff`):

* a text of fewer than four characters with padding has an output of a negative size;
* a character of eight bits, as an index, is outside of the map;
* for the shorter group at the end there is no room, and for the one before it too little if the last two
  characters of the text are padding that is not its own.
-/

namespace Cppnet.Base64

open Lib

namespace Encoding

variable (enc : Encoding)

/-- The number of padding characters among the last two. -/
def padCount (s : Bytes) : ℕ := (s.drop (s.length - 2)).count enc.padchar

/-- `out_size`, as `decode` computes it. -/
def outSize (s : Bytes) : ℕ :=
  if enc.padchar ≠ 0 then (decodedSize s.length (enc.padchar != 0) + 2 ^ 64 - enc.padCount s) % 2 ^ 64
  else decodedSize s.length (enc.padchar != 0)

/-- Where the loop of `decode` writes to, from the position `outI` of the output on: one byte less than
    there are digits, for each of the groups that `decode_triplet` finds valid. -/
def loopWrites (past : Byte) : ℕ → ℕ → Bytes → List ℕ
  | 0, _, _ => []
  | fuel + 1, outI, data =>
    if data = [] then []
    else
      match enc.lookahead past data (min data.length 4) 0 [] with
      | none => []
      | some (i, buf) =>
        if i < min data.length 4 then []
        else (List.range (buf.length - 1)).map (outI + ·) ++ loopWrites past fuel (outI + 3) (data.drop 4)

/-- Where `decode` writes to. -/
def decodeWrites (past : Byte) (s : Bytes) : List ℕ :=
  if enc.padchar ≠ 0 ∧ (s.length < 2 ∨ 2 ^ 63 ≤ enc.outSize s) then []
  else enc.loopWrites past (s.length + 1) 0 s

/-- The output has a size, and all that is looked up and written is inside. -/
structure Inside (past : Byte) (s : Bytes) : Prop where
  size : enc.padchar ≠ 0 → enc.padCount s ≤ decodedSize s.length (enc.padchar != 0)
  entries : ∀ i, .entry i ∈ enc.decodeReads past s → i < 256
  writes : ∀ i ∈ enc.decodeWrites past s, i < enc.outSize s

variable {enc}

/-! ## A group -/

theorem entry_not_mem_skipReads (padchar past : Byte) (data : Bytes) (inI n i : ℕ) (c : Byte) (k : ℕ) :
    .entry k ∉ skipReads padchar past data inI n i c := by
  induction n generalizing i c with
  | zero => exact List.not_mem_nil
  | succ n ih =>
    rw [skipReads]
    split
    · rw [List.mem_cons, not_or]
      refine ⟨?_, ih _ _⟩
      intro h
      cases h
    · exact List.not_mem_nil

/-- What is looked up of a group is inside of the map if its first character that is not one of the
    alphabet is. -/
theorem lookaheadReads_entries_iff (enc : Encoding) (past : Byte) (group pre rest : Bytes) (inI : ℕ) :
    (∀ k, .entry k ∈ enc.lookaheadReads past (pre ++ (group ++ rest)) inI group.length pre.length → k < 256) ↔
      ∀ c ∈ enc.other group, c < 128 := by
  induction group generalizing pre with
  | nil => simp [lookaheadReads, other]
  | cons c group ih =>
    have hchar : (pre ++ (c :: group ++ rest)).getD pre.length past = c := by simp
    cases h : digit enc.encoder c with
    | some i =>
      obtain rfl := alphabet_of_digit h
      have hpre : pre ++ [enc.encoder i] ++ (group ++ rest) = pre ++ (enc.encoder i :: group ++ rest) := by
        simp
      have hlen : (pre ++ [enc.encoder i]).length = pre.length + 1 := by simp
      have hrest := ih (pre ++ [enc.encoder i])
      rw [hpre, hlen] at hrest
      rw [other_cons_some h, ← hrest, List.length_cons, lookaheadReads_digit hchar]
      have hindex := (index_lt_iff _).2 (enc.encoder_lt i)
      simp [hindex]
    | none =>
      rw [other_cons_none h, List.length_cons, lookaheadReads, hchar]
      simp only [Option.mem_def, Option.some.injEq, forall_eq']
      rw [← index_lt_iff]
      refine ⟨fun hall => hall _ (by simp), fun hlt k hk => ?_⟩
      rw [enc.lookup_decoder ((index_lt_iff c).1 hlt), h] at hk
      simp only [Option.map_none, Option.getD_none, if_true, List.mem_cons, reduceCtorEq, false_or,
        Access.entry.injEq] at hk
      rcases hk with rfl | hk
      · exact hlt
      · split at hk
        · exact absurd hk (entry_not_mem_skipReads _ _ _ _ _ _ _ _)
        · cases hk

/-- A group whose first character that is not one of the alphabet is outside of the map. -/
theorem lookahead_eq_none (past : Byte) {group : Bytes} {c : Byte} (hc : enc.other group = some c)
    (hlt : ¬c < 128) (pre rest buf : Bytes) :
    enc.lookahead past (pre ++ (group ++ rest)) group.length pre.length buf = none := by
  induction group generalizing pre buf with
  | nil => cases hc
  | cons c' group ih =>
    have hchar : (pre ++ (c' :: group ++ rest)).getD pre.length past = c' := by simp
    rw [List.length_cons, lookahead, hchar]
    cases h : digit enc.encoder c' with
    | some i =>
      obtain rfl := alphabet_of_digit h
      rw [other_cons_some h] at hc
      rw [enc.lookup_decoder (enc.encoder_lt i), h]
      simp only [Option.map_some, Option.getD_some, Option.bind_eq_bind, Option.bind_some,
        if_neg (ofNat_digit_ne i)]
      have hrest := ih hc (pre ++ [enc.encoder i]) (buf ++ [UInt8.ofNat i])
      simpa using hrest
    | none =>
      rw [other_cons_none h] at hc
      cases hc
      rw [lookup, dif_neg (mt (index_lt_iff _).1 hlt)]
      rfl

/-- The positions of the bytes of a group are inside, if there are any. -/
theorem forall_mem_range_map {n o size : ℕ} :
    (∀ i ∈ (List.range (n - 1)).map (o + ·), i < size) ↔ n ≤ 1 ∨ o + (n - 1) ≤ size := by
  simp only [List.mem_map, List.mem_range, forall_exists_index, and_imp, forall_apply_eq_imp_iff₂]
  constructor
  · intro h
    rcases Nat.lt_or_ge 1 n with hlt | hle
    · have hlast := h (n - 2) (by omega)
      omega
    · exact .inl hle
  · intro h i hi
    omega

/-! ## Groups one after the other -/

variable (enc) in
/-- In each group of a text up to the first that is not one of digits and padding, the first character that
    is not one of the alphabet is inside of the map, and the bytes of the group are inside of an output of
    `size` bytes from the offset `o` on. -/
def GroupsInside (size o : ℕ) (s : Bytes) : Prop :=
  ∀ j, 4 * j < s.length → (∀ i < j, (enc.groupDigits (groupAt s i)).isSome) →
    (∀ c ∈ enc.other (groupAt s j), c < 128) ∧
    ∀ ds ∈ enc.groupDigits (groupAt s j), ds.length ≤ 1 ∨ o + 3 * j + (ds.length - 1) ≤ size

theorem groupsInside_nil (size o : ℕ) : enc.GroupsInside size o [] :=
  fun _ hj => absurd hj (Nat.not_lt_zero _)

/-- The first group, and those behind it. -/
theorem groupsInside_drop_iff {size o : ℕ} {s : Bytes} (hne : s ≠ []) :
    enc.GroupsInside size o s ↔ (∀ c ∈ enc.other (s.take 4), c < 128) ∧
      ∀ ds ∈ enc.groupDigits (s.take 4),
        (ds.length ≤ 1 ∨ o + (ds.length - 1) ≤ size) ∧ enc.GroupsInside size (o + 3) (s.drop 4) := by
  have hpos := List.length_pos_iff.2 hne
  have hfirst : groupAt s 0 = s.take 4 := rfl
  constructor
  · intro h
    obtain ⟨hother, hbytes⟩ := h 0 (by omega) (fun i hi => absurd hi (Nat.not_lt_zero i))
    refine ⟨hother, fun ds hds => ⟨hbytes ds hds, fun j hj hbefore => ?_⟩⟩
    rw [List.length_drop] at hj
    have hnext := h (j + 1) (by omega) fun i hi => by
      cases i with
      | zero => exact Option.isSome_iff_exists.2 ⟨ds, hds⟩
      | succ i =>
        rw [← groupAt_drop]
        exact hbefore i (Nat.lt_of_succ_lt_succ hi)
    rwa [← groupAt_drop, Nat.mul_add, Nat.add_comm (3 * j), ← Nat.add_assoc] at hnext
  · rintro ⟨hother, hrest⟩ j hj hbefore
    cases j with
    | zero => exact ⟨hother, fun ds hds => (hrest ds hds).1⟩
    | succ j =>
      obtain ⟨ds, hds⟩ := Option.isSome_iff_exists.1 (hbefore 0 (Nat.succ_pos j))
      have hnext := (hrest ds hds).2 j (by rw [List.length_drop]; omega) fun i hi => by
        rw [groupAt_drop]
        exact hbefore (i + 1) (Nat.succ_lt_succ hi)
      have hpos' : o + 3 + 3 * j = o + 3 * (j + 1) := by omega
      rwa [groupAt_drop, hpos'] at hnext

/-- What the loop of `decode` looks up and writes, group by group. -/
theorem loop_inside_iff (past : Byte) {data : Bytes} {fuel : ℕ} (hfuel : data.length < fuel)
    (inI outI size : ℕ) :
    ((∀ k, .entry k ∈ enc.loopReads past fuel inI data → k < 256) ∧
      ∀ i ∈ enc.loopWrites past fuel outI data, i < size) ↔ enc.GroupsInside size outI data := by
  induction fuel generalizing data inI outI with
  | zero => exact absurd hfuel (Nat.not_lt_zero _)
  | succ fuel ih =>
    rw [loopReads, loopWrites]
    by_cases hne : data = []
    · subst hne
      simpa using enc.groupsInside_nil size outI
    have hpos := List.length_pos_iff.2 hne
    have hlen : (data.take 4).length = min data.length 4 := by
      rw [List.length_take, Nat.min_comm]
    have hentries := enc.lookaheadReads_entries_iff past (data.take 4) [] (data.drop 4) inI
    rw [List.nil_append, List.take_append_drop, List.length_nil, hlen] at hentries
    rw [if_neg hne, if_neg hne, groupsInside_drop_iff hne, ← hentries]
    by_cases hother : ∀ c ∈ enc.other (data.take 4), c < 128
    · have hlook := enc.lookahead_group past hother [] (data.drop 4) []
      rw [List.nil_append, List.take_append_drop, List.length_nil, Nat.zero_add, hlen] at hlook
      cases hds : enc.groupDigits (data.take 4) with
      | some ds =>
        rw [hds] at hlook
        dsimp only at hlook
        rw [hlook]
        dsimp only
        have hshort : (data.drop 4).length < fuel := by
          rw [List.length_drop]
          omega
        have hrest := ih hshort (inI + 4) (outI + 3)
        rw [if_neg (lt_irrefl _), if_neg (lt_irrefl _), List.forall_mem_append, forall_mem_range_map,
          List.nil_append, List.length_map]
        simp only [List.mem_append, or_imp, forall_and, Option.mem_def, Option.some.injEq, forall_eq']
        rw [← hrest]
        tauto
      | none =>
        rw [hds] at hlook
        obtain ⟨i, buf, hlook, hlt⟩ := hlook
        rw [hlook]
        dsimp only
        rw [if_pos hlt, if_pos hlt]
        simp
    · -- the index is outside, whatever comes behind it
      have hnot := mt hentries.1 hother
      refine iff_of_false (fun h => hnot fun k hk => h.1 k (List.mem_append_left _ hk)) fun h => hnot h.1

/-- The loop of `decode` has a result if all of that is inside. -/
theorem decodeLoop_isSome_iff (past : Byte) {data : Bytes} {fuel : ℕ} (hfuel : data.length < fuel)
    (out : Bytes) (outI : ℕ) :
    (enc.decodeLoop past fuel out outI data).isSome ↔ enc.GroupsInside out.length outI data := by
  induction fuel generalizing data out outI with
  | zero => exact absurd hfuel (Nat.not_lt_zero _)
  | succ fuel ih =>
    by_cases hne : data = []
    · subst hne
      rw [decodeLoop, if_pos rfl]
      exact iff_of_true rfl (enc.groupsInside_nil _ _)
    have hpos := List.length_pos_iff.2 hne
    rw [groupsInside_drop_iff hne]
    by_cases hother : ∀ c ∈ enc.other (data.take 4), c < 128
    · rw [decodeLoop_succ past fuel out outI hother hne, and_iff_right hother]
      cases hds : enc.groupDigits (data.take 4) with
      | some ds =>
        have hle : ds.length ≤ 4 := (length_groupDigits hds).trans (List.length_take_le 4 data)
        have hspec := store_spec out outI (bytesOf ds)
        rw [length_bytesOf] at hspec
        simp only [Option.mem_def, Option.some.injEq, forall_eq']
        cases hstore : store out outI (bytesOf ds) with
        | none =>
          rw [hstore] at hspec
          refine iff_of_false (by simp) fun h => hspec ?_
          omega
        | some out' =>
          rw [hstore] at hspec
          rw [Option.bind_some, ih (by rw [List.length_drop]; omega), hspec.2, iff_and_self]
          intro _
          omega
      | none => simp
    · -- the index of a character is outside of the map
      refine iff_of_false (fun h => ?_) fun h => hother h.1
      obtain ⟨c, hc, hlt⟩ : ∃ c, enc.other (data.take 4) = some c ∧ ¬c < 128 := by
        simpa only [Option.mem_def, not_forall, exists_prop] using hother
      have hlook := lookahead_eq_none past hc hlt [] (data.drop 4) []
      rw [List.nil_append, List.take_append_drop, List.length_take, Nat.min_comm, List.length_nil] at hlook
      rw [decodeLoop, if_neg hne, decodeTriplet, hlook] at h
      cases h

/-! ## The size of the output -/

theorem padCount_le (enc : Encoding) (s : Bytes) : enc.padCount s ≤ 2 := count_last_le enc.padchar s

variable {s : Bytes}

theorem decodedSize_padded (hpad : enc.padchar ≠ 0) (hmax : s.length * 6 < 2 ^ 64) :
    decodedSize s.length (enc.padchar != 0) = s.length / 4 * 3 := by
  rw [decodedSize, if_pos (bne_iff_ne.2 hpad)]
  omega

theorem outSize_padded (hpad : enc.padchar ≠ 0) (hmax : s.length * 6 < 2 ^ 64)
    (hcount : enc.padCount s ≤ s.length / 4 * 3) : enc.outSize s = s.length / 4 * 3 - enc.padCount s := by
  have hwrap : s.length / 4 * 3 + 2 ^ 64 - enc.padCount s = s.length / 4 * 3 - enc.padCount s + 2 ^ 64 := by
    omega
  rw [outSize, if_pos hpad, decodedSize_padded hpad hmax, hwrap, Nat.add_mod_right]
  omega

theorem outSize_unpadded (hpad : enc.padchar = 0) (hmax : s.length * 6 < 2 ^ 64) :
    enc.outSize s = s.length * 6 / 8 := by
  rw [outSize, if_neg (not_not_intro hpad), decodedSize, hpad, if_neg (by simp), Nat.mod_eq_of_lt hmax]

/-- The size of the vector is too large if and only if it went below zero. -/
theorem outSize_ge_iff (hpad : enc.padchar ≠ 0) (hmax : s.length * 6 < 2 ^ 64) :
    2 ^ 63 ≤ enc.outSize s ↔ ¬enc.padCount s ≤ s.length / 4 * 3 := by
  have hle := enc.padCount_le s
  by_cases hcount : enc.padCount s ≤ s.length / 4 * 3
  · rw [outSize_padded hpad hmax hcount]
    exact iff_of_false (by omega) (not_not_intro hcount)
  · refine iff_of_true ?_ hcount
    rw [outSize, if_pos hpad, decodedSize_padded hpad hmax, Nat.mod_eq_of_lt (by omega)]
    omega

theorem inside_iff_groups (past : Byte) (hlen : 2 ≤ s.length) (hmax : s.length * 6 < 2 ^ 64) :
    enc.Inside past s ↔ (enc.padchar ≠ 0 → enc.padCount s ≤ s.length / 4 * 3) ∧
      enc.GroupsInside (enc.outSize s) 0 s := by
  have hiff : enc.Inside past s ↔ (enc.padchar ≠ 0 → enc.padCount s ≤ decodedSize s.length (enc.padchar != 0)) ∧
      (∀ i, .entry i ∈ enc.decodeReads past s → i < 256) ∧ ∀ i ∈ enc.decodeWrites past s, i < enc.outSize s :=
    ⟨fun h => ⟨h.size, h.entries, h.writes⟩, fun h => ⟨h.1, h.2.1, h.2.2⟩⟩
  rw [hiff, ← loop_inside_iff past (Nat.lt_succ_self s.length) 0 0]
  by_cases hpad : enc.padchar = 0
  · rw [decodeReads, if_neg (not_not_intro hpad), decodeWrites, if_neg (fun h => h.1 hpad)]
    simp [hpad]
  · rw [decodedSize_padded hpad hmax]
    refine and_congr_right fun hcount => ?_
    have hsize := mt (outSize_ge_iff hpad hmax).1 (not_not_intro (hcount hpad))
    rw [decodeWrites, if_neg (by omega), decodeReads]
    dsimp only
    rw [if_pos hpad, if_neg (by omega), if_neg]
    · simp
    · rw [outSize, if_pos hpad, padCount] at hsize
      exact hsize

/-- `decode` has a result if and only if its output has a size, and all that it looks up and writes is
    inside. -/
theorem decode_isSome_iff (past : Byte) (hlen : 2 ≤ s.length) (hmax : s.length * 6 < 2 ^ 64) :
    (enc.decode past s).isSome ↔ enc.Inside past s := by
  rw [inside_iff_groups past hlen hmax, decode]
  dsimp only
  by_cases hpad : enc.padchar = 0
  · rw [if_neg (not_not_intro hpad), decodeLoop_isSome_iff past (Nat.lt_succ_self s.length),
      List.length_replicate, outSize, if_neg (not_not_intro hpad)]
    simp [hpad]
  · have hsize : (decodedSize s.length (enc.padchar != 0) + 2 ^ 64 -
        (s.drop (s.length - 2)).count enc.padchar) % 2 ^ 64 = enc.outSize s := by
      rw [outSize, if_pos hpad, padCount]
    rw [if_pos hpad, if_neg (by omega), hsize]
    split
    · next hge => exact iff_of_false (by simp) fun h => (outSize_ge_iff hpad hmax).1 hge (h.1 hpad)
    · next hlt =>
      rw [outSize_ge_iff hpad hmax, not_not] at hlt
      rw [decodeLoop_isSome_iff past (Nat.lt_succ_self s.length), List.length_replicate,
        and_iff_right fun _ => hlt]

/-- Without padding, there is room for every group. -/
theorem room_unpadded {j : ℕ} (hj : 4 * j < s.length) {ds : List (Fin 64)}
    (hds : enc.groupDigits (groupAt s j) = some ds) : 3 * j + (ds.length - 1) ≤ s.length * 6 / 8 := by
  have hle := length_groupDigits hds
  rw [groupAt, List.length_take, List.length_drop] at hle
  omega

/-- With padding, there is room for a group if it is not the shorter one at the end, and not the one before
    that with too many digits. -/
theorem room_padded_iff (hcount : enc.padCount s ≤ s.length / 4 * 3) {j : ℕ} (hj : 4 * j < s.length)
    {ds : List (Fin 64)} (hds : enc.groupDigits (groupAt s j) = some ds) :
    (ds.length ≤ 1 ∨ 3 * j + (ds.length - 1) ≤ s.length / 4 * 3 - enc.padCount s) ↔
      (s.length / 4 = j → ds.length ≤ 1) ∧ (s.length / 4 = j + 1 → ds.length + enc.padCount s ≤ 4) := by
  have hle := length_groupDigits hds
  have htwo := enc.padCount_le s
  rw [groupAt, List.length_take, List.length_drop] at hle
  omega

end Encoding

/-- The size of the output does not go below zero, and all that `decode` looks up and writes is inside of the
    decode map and of the output, if and only if: with padding, a text of fewer than four characters has none
    among the last two; in the groups up to the first that is not one of digits and padding, the first
    character that is not one of the alphabet has seven bits; and with padding, if these groups are all, the
    shorter one at the end has one digit at most, and the last full one no more than the padding among the
    last two characters leaves room for. -/
theorem decode_inside_iff (enc : Encoding) (s : Bytes) (hlen : 2 ≤ s.length) (hmax : s.length * 6 < 2 ^ 64)
    (past : Byte) :
    enc.Inside past s ↔
      (enc.padchar ≠ 0 → s.length < 4 → enc.padchar ∉ s.drop (s.length - 2)) ∧
      ∀ j, 4 * j < s.length → (∀ i < j, (enc.groupDigits (Encoding.groupAt s i)).isSome) →
        (∀ c ∈ enc.other (Encoding.groupAt s j), c < 128) ∧
        (enc.padchar ≠ 0 → ∀ ds ∈ enc.groupDigits (Encoding.groupAt s j),
          (s.length / 4 = j → ds.length ≤ 1) ∧
          (s.length / 4 = j + 1 → ds.length + (s.drop (s.length - 2)).count enc.padchar ≤ 4)) := by
  rw [Encoding.inside_iff_groups past hlen hmax]
  by_cases hpad : enc.padchar = 0
  · simp only [hpad, ne_eq, not_true_eq_false, false_imp_iff, true_and, and_true]
    rw [Encoding.GroupsInside, Encoding.outSize_unpadded hpad hmax]
    refine forall_congr' fun j => forall_congr' fun hj => forall_congr' fun _ => ?_
    rw [and_iff_left_iff_imp]
    intro _ ds hds
    rw [Nat.zero_add]
    exact .inr (Encoding.room_unpadded hj hds)
  · have hle := enc.padCount_le s
    have hsize : (enc.padchar ≠ 0 → enc.padCount s ≤ s.length / 4 * 3) ↔
        (enc.padchar ≠ 0 → s.length < 4 → enc.padchar ∉ s.drop (s.length - 2)) := by
      rw [imp_iff_right hpad, imp_iff_right hpad, ← List.count_eq_zero, ← Encoding.padCount]
      omega
    rw [← hsize]
    refine and_congr_right fun hcount => ?_
    rw [Encoding.GroupsInside, Encoding.outSize_padded hpad hmax (hcount hpad)]
    refine forall_congr' fun j => forall_congr' fun hj => forall_congr' fun _ => and_congr_right fun _ => ?_
    rw [imp_iff_right hpad]
    refine forall_congr' fun ds => forall_congr' fun hds => ?_
    rw [Nat.zero_add, Encoding.room_padded_iff (hcount hpad) hj hds, Encoding.padCount]

/-- A text of two digits and padding. -/
theorem decode_inside_iff_four :
    ∃ enc, encoding standardAlphabet (ch '=') = some enc ∧ enc.Inside 0 (sv "ZA==") := by
  obtain ⟨enc, henc, hencoder, hpad⟩ := encoding_eq_some standardAlphabet_lt (ch '=')
  refine ⟨enc, henc, (decode_inside_iff enc (sv "ZA==") (by decide) (by decide) 0).2 ⟨fun _ h => ?_, ?_⟩⟩
  · exact absurd h (by decide)
  · intro j hj _
    have hlen : (sv "ZA==").length = 4 := by decide
    obtain rfl : j = 0 := by omega
    have hgroup : Encoding.groupAt (sv "ZA==") 0 = sv "ZA==" := by decide
    have hall : ∀ c ∈ sv "ZA==", c < 128 := by decide
    rw [hgroup]
    refine ⟨enc.other_lt hall, fun _ ds hds => ?_⟩
    have hmapM : (sv "ZA").mapM (digit enc.encoder) = some [25, 0] := by
      rw [hencoder]
      decide +kernel
    have hdigits := Encoding.groupDigits_append (fun _ => hencoder ▸ hpad ▸ standardAlphabet_ne) hmapM 2
    have htext : sv "ZA" ++ enc.padding 2 = sv "ZA==" := by
      rw [Encoding.padding, hpad]
      decide
    rw [htext] at hdigits
    cases hdigits.symm.trans hds
    rw [hpad]
    exact ⟨fun h => absurd h (by decide), fun _ => by decide⟩

/-- Behind a full group, two digits more are a byte behind the end of the output. The size of the output for
    two padding characters is less than zero, and a character of eight bits is looked up outside of the map. -/
theorem decode_outside :
    ∃ enc, encoding standardAlphabet (ch '=') = some enc ∧
      (3 ∈ enc.decodeWrites 0 (sv "QUJDQQ") ∧ enc.outSize (sv "QUJDQQ") = 3) ∧
      (¬enc.padCount (sv "==") ≤ decodedSize 2 true) ∧
      (.entry (index 0xff) ∈ enc.decodeReads 0 (0xff :: sv "QUI") ∧ ¬index 0xff < 256) ∧
      ¬enc.Inside 0 (sv "QUJDQQ") := by
  obtain ⟨enc, henc, hencoder, hpad⟩ := encoding_eq_some standardAlphabet_lt (ch '=')
  have hwrites : (encoding standardAlphabet (ch '=')).map
      (fun enc => decide (3 ∈ enc.decodeWrites 0 (sv "QUJDQQ"))) = some true := by decide +kernel
  have hsize : (encoding standardAlphabet (ch '=')).map (·.outSize (sv "QUJDQQ")) = some 3 := by
    decide +kernel
  have hreads : (encoding standardAlphabet (ch '=')).map
      (fun enc => decide (.entry (index 0xff) ∈ enc.decodeReads 0 (0xff :: sv "QUI"))) = some true := by
    decide +kernel
  rw [henc, Option.map_some, Option.some.injEq, decide_eq_true_eq] at hwrites hreads
  rw [henc, Option.map_some, Option.some.injEq] at hsize
  refine ⟨enc, henc, ⟨hwrites, hsize⟩, ?_, ⟨hreads, by decide⟩, fun h => ?_⟩
  · rw [Encoding.padCount, hpad]
    decide
  · exact absurd (h.writes 3 hwrites) (by rw [hsize]; decide)

end Cppnet.Base64
