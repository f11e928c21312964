import Cppnet.Http.Decode
import Cppnet.Http.Encode

/-!
# Header injection

`write_headers` writes keys and values as they are, whatever they hold. An end of line in a
value starts a line of its own, and what `parse_headers` takes it for depends on the line only:
an empty one ends the headers, one with a colon is one more key.

Maps for which neither happens are *contained*. This is exactly what it takes for the headers to
be read with the keys they were written with, up to the empty line behind them
(`headers_contained_iff`).
-/

namespace Cppnet.Http

open Lib Io Util

/-! ## Keys -/

/-- A key that can be read: on one line, before a colon, and trimmed. -/
@[mk_iff] structure IsKey (key : Bytes) : Prop where
  colon : ch ':' ∉ key
  line : ¬crlf <:+: key
  trimmed : trimString key = key

instance (key : Bytes) : Decidable (IsKey key) := decidable_of_iff' _ (isKey_iff key)

/-- Being a key does not depend on the case. -/
theorem IsKey.of_lower_eq {key key' : Bytes} (h : IsKey key) (heq : lower key = lower key') :
    IsKey key' := by
  refine ⟨?_, ?_, ?_⟩
  · have hcolon : NoLetter (ch ':') := by decide
    rw [← mem_lower_iff hcolon, ← heq, mem_lower_iff hcolon]
    exact h.colon
  · have hcrlf : ∀ c ∈ crlf, NoLetter c := by decide
    rw [← isInfix_lower_iff hcrlf, ← heq, isInfix_lower_iff hcrlf]
    exact h.line
  · have hlower : lower (trimString key') = lower key' := by
      rw [← trimString_lower, ← heq, trimString_lower, h.trimmed]
    refine (trimString_isInfix key').eq_of_length ?_
    have hlen := congrArg List.length hlower
    rwa [lower, lower, List.length_map, List.length_map] at hlen

/-- The keys of a line: one, if it has a colon. -/
theorem exists_mem_lineFields {line i : Bytes} : (∃ kv ∈ lineFields line, lower kv.1 = i) ↔
    ∃ key val, line = key ++ ch ':' :: val ∧ ch ':' ∉ key ∧ lower (trimString key) = i := by
  constructor
  · rintro ⟨kv, hkv, rfl⟩
    by_cases hcolon : ch ':' ∈ line
    · obtain ⟨key, val, rfl, hkey⟩ := List.eq_append_cons_of_mem hcolon
      rw [lineFields_append hkey] at hkv
      obtain ⟨v, -, rfl⟩ := List.mem_map.1 hkv
      exact ⟨key, val, rfl, hkey, rfl⟩
    · rw [lineFields_of_not_mem hcolon] at hkv
      exact absurd hkv List.not_mem_nil
  · rintro ⟨key, val, rfl, hkey, rfl⟩
    rw [lineFields_append hkey]
    obtain ⟨v, hv⟩ := List.exists_mem_of_ne_nil _
      (List.splitOn_ne_nil (ch ',') (trimString val))
    exact ⟨(trimString key, v), List.mem_map_of_mem hv, rfl⟩

theorem mem_keys_messageHeaders {lines : List Bytes} {i : Bytes} :
    i ∈ (messageHeaders lines).keys ↔
      ∃ key val, key ++ ch ':' :: val ∈ lines ∧ ch ':' ∉ key ∧ lower (trimString key) = i := by
  rw [messageHeaders, KeyedMap.mem_keys_addAll, KeyedMap.keys_empty]
  constructor
  · rintro (h | ⟨kv, hkv, hi⟩)
    · exact absurd h List.not_mem_nil
    · obtain ⟨line, hline, hkv⟩ := List.mem_flatMap.1 hkv
      obtain ⟨key, val, rfl, h⟩ := exists_mem_lineFields.1 ⟨kv, hkv, hi⟩
      exact ⟨key, val, hline, h⟩
  · rintro ⟨key, val, hline, h⟩
    obtain ⟨kv, hkv, hi⟩ := exists_mem_lineFields.2 ⟨key, val, rfl, h⟩
    exact .inr ⟨kv, List.mem_flatMap.2 ⟨_, hline, hkv⟩, hi⟩

/-- The keys read from a line are keys. -/
theorem isKey_of_line {key val : Bytes} (hline : ¬crlf <:+: key ++ ch ':' :: val)
    (hkey : ch ':' ∉ key) : IsKey (trimString key) := by
  have hpart := trimString_isInfix key
  refine ⟨fun h => hkey (hpart.subset h), fun h => hline ?_, trimString_trimString key⟩
  exact (h.trans hpart).trans (List.prefix_append _ _).isInfix

/-! ## Lines -/

/-- The lines of the text of the headers. -/
def wireLines (headers : List (Bytes × List Bytes)) : List Bytes :=
  headers.flatMap fun header => splitLines crlf (headerLine header)

theorem headersText_eq (headers : List (Bytes × List Bytes)) :
    headersText headers = (wireLines headers).flatMap (· ++ crlf) := by
  rw [headersText, wireLines, List.flatMap_map, List.flatMap_assoc]
  exact List.flatMap_congr fun header _ => (splitLines_spec crlf_ne_nil _).1.symm

theorem not_crlf_of_mem_wireLines {headers : List (Bytes × List Bytes)} {l : Bytes}
    (hl : l ∈ wireLines headers) : ¬crlf <:+: l := by
  obtain ⟨header, -, hl⟩ := List.mem_flatMap.1 hl
  exact (splitLines_spec crlf_ne_nil _).2 l hl

/-- What is before a value, on its line, is before its first line. -/
theorem splitLines_append {p s : Bytes} (hp : ¬crlf <:+: p) (hcr : ¬[13] <:+ p) :
    splitLines crlf (p ++ s) = (p ++ (splitLines crlf s).headD []) :: (splitLines crlf s).tail := by
  have hline : ∀ {l : Bytes}, ¬crlf <:+: l → ¬crlf <:+: p ++ l := by
    intro l hl h
    rcases crlf_append_iff.1 h with h | h | ⟨h, -⟩
    · exact hp h
    · exact hl h
    · exact hcr h
  by_cases h : crlf <:+: s
  · obtain ⟨l, r, rfl, hl⟩ := exists_isLine crlf_ne_nil h
    rw [splitLines_line crlf_ne_nil hl, ← List.append_assoc, ← List.append_assoc,
      splitLines_line crlf_ne_nil (isLine_crlf (hline hl.not_isInfix))]
    rfl
  · rw [splitLines_of_no_end h, splitLines_of_no_end (hline h)]
    rfl

/-- The lines of a key: the first one is the key's, the others are in the values. -/
theorem splitLines_headerLine {header : Bytes × List Bytes} (hkey : ¬crlf <:+: header.1) :
    splitLines crlf (headerLine header) =
      (header.1 ++ ch ':' :: (ch ' ' :: (splitLines crlf (joinValues header.2)).headD [])) ::
        (splitLines crlf (joinValues header.2)).tail := by
  have hp : ¬crlf <:+: header.1 ++ sv ": " := by
    intro h
    rcases crlf_append_iff.1 h with h | h | ⟨-, h⟩
    · exact hkey h
    · exact absurd h (by decide)
    · exact absurd h (by decide)
  have hcr : ¬[13] <:+ header.1 ++ sv ": " := by
    change ¬[13] <:+ header.1 ++ ([ch ':'] ++ [ch ' '])
    rw [← List.append_assoc, List.singleton_suffix_append_singleton_iff]
    decide
  rw [headerLine, splitLines_append hp hcr, List.append_assoc]
  rfl

/-! ## Containment -/

/-- Headers with keys that can be read, and values without an empty line in them, or a line that
    starts with a key other than those of the headers. -/
structure Contained (headers : Headers) : Prop where
  key : ∀ e ∈ headers.entries, IsKey e.1
  line_ne_nil : ∀ e ∈ headers.entries, [] ∉ (splitLines crlf (joinValues e.2)).tail
  line_key : ∀ e ∈ headers.entries, ∀ key val,
    key ++ ch ':' :: val ∈ (splitLines crlf (joinValues e.2)).tail → ch ':' ∉ key →
      lower (trimString key) ∈ headers.keys

section

variable {headers : Headers} {order : List (Bytes × List Bytes)}
  (horder : order.Perm headers.entries)

include horder

/-- A line of contained headers is that of a key, or in a value. -/
theorem mem_wireLines_iff (hkey : ∀ e ∈ headers.entries, IsKey e.1) {l : Bytes} :
    l ∈ wireLines order ↔ ∃ e ∈ headers.entries,
      l = e.1 ++ ch ':' :: (ch ' ' :: (splitLines crlf (joinValues e.2)).headD []) ∨
        l ∈ (splitLines crlf (joinValues e.2)).tail := by
  rw [wireLines, List.mem_flatMap]
  constructor
  · rintro ⟨e, he, hl⟩
    have he' := horder.mem_iff.1 he
    rw [splitLines_headerLine (hkey e he').line, List.mem_cons] at hl
    exact ⟨e, he', hl⟩
  · rintro ⟨e, he, hl⟩
    refine ⟨e, horder.mem_iff.2 he, ?_⟩
    rwa [splitLines_headerLine (hkey e he).line, List.mem_cons]

/-- No line of contained headers is empty. -/
theorem Contained.nil_not_mem (h : Contained headers) : [] ∉ wireLines order := by
  rw [mem_wireLines_iff horder h.key]
  rintro ⟨e, he, hl | hl⟩
  · exact List.append_ne_nil_of_right_ne_nil _ (List.cons_ne_nil _ _) hl.symm
  · exact h.line_ne_nil e he hl

/-- The keys of the lines of contained headers are theirs. -/
theorem Contained.mem_keys_iff (h : Contained headers) (i : Bytes) :
    i ∈ (messageHeaders (wireLines order)).keys ↔ i ∈ headers.keys := by
  rw [mem_keys_messageHeaders]
  constructor
  · rintro ⟨key, val, hl, hcolon, rfl⟩
    obtain ⟨e, he, hl | hl⟩ := (mem_wireLines_iff horder h.key).1 hl
    · rw [eq_of_append_cons_eq hl hcolon (h.key e he).colon, (h.key e he).trimmed]
      exact List.mem_map_of_mem he
    · exact h.line_key e he key val hl hcolon
  · intro hi
    obtain ⟨e, he, rfl⟩ := List.mem_map.1 hi
    refine ⟨e.1, _, (mem_wireLines_iff horder h.key).2 ⟨e, he, .inl rfl⟩, (h.key e he).colon, ?_⟩
    rw [(h.key e he).trimmed]

/-- Headers are contained if no line of their text is empty, and the keys of the lines are
    theirs. -/
theorem contained_of_mem_keys_iff (hnil : [] ∉ wireLines order)
    (hkeys : ∀ i, i ∈ (messageHeaders (wireLines order)).keys ↔ i ∈ headers.keys) :
    Contained headers := by
  have hkey : ∀ e ∈ headers.entries, IsKey e.1 := by
    intro e he
    have hmem : lower e.1 ∈ headers.keys := List.mem_map_of_mem he
    obtain ⟨key, val, hl, hcolon, hi⟩ := mem_keys_messageHeaders.1 ((hkeys _).2 hmem)
    exact (isKey_of_line (not_crlf_of_mem_wireLines hl) hcolon).of_lower_eq hi
  have hline : ∀ e ∈ headers.entries, ∀ l ∈ (splitLines crlf (joinValues e.2)).tail,
      l ∈ wireLines order := fun e he l hl =>
    (mem_wireLines_iff horder hkey).2 ⟨e, he, .inr hl⟩
  refine ⟨hkey, fun e he hl => hnil (hline e he _ hl), fun e he key val hl hcolon => ?_⟩
  exact (hkeys _).1 (mem_keys_messageHeaders.2 ⟨key, val, hline e he _ hl, hcolon, rfl⟩)

end

theorem linesLength_le {lines lines' : List Bytes} (h : lines <+: lines') :
    linesLength lines ≤ (lines'.flatMap (· ++ crlf)).length := by
  obtain ⟨rest, rfl⟩ := h
  induction lines with
  | nil => exact Nat.zero_le _
  | cons l lines ih =>
    simp only [linesLength, List.map_cons, List.sum_cons, List.cons_append, List.flatMap_cons,
      List.length_append] at ih ⊢
    omega

/-- For every map of headers, and every order in which `write_headers` may write it: however its
    text, with an empty line behind it, is split into reads, `parse_headers` finds the keys of the
    map in it, no others, and stops behind that empty line, if and only if the headers are
    contained. -/
theorem headers_contained_iff (headers : Headers) (order : List (Bytes × List Bytes))
    (horder : order.Perm headers.entries) :
    ∃ w, writeHeaders Sink.empty order = some (none, w) ∧
      ∀ (s : Source) (rest : Bytes) (capacity maxRead : ℕ), s.Prompt →
        s.pending = w.received ++ (crlf ++ rest) → 0 < capacity → w.received.length < maxRead →
        ((∃ headers' r, parseHeaders (.new s capacity) maxRead .empty = some (.ok headers', r) ∧
          (∀ i, i ∈ headers'.keys ↔ i ∈ headers.keys) ∧ Reader.content r = rest) ↔
            Contained headers) := by
  obtain ⟨w, hw, hreceived⟩ := writeEach_received (order.flatMap headerParts)
  have htext : w.received = (wireLines order).flatMap (· ++ crlf) := by
    rw [hreceived, flatten_flatMap_headerParts, headersText_eq]
  refine ⟨w, hw, fun s rest capacity maxRead hs hpending hcap hmax => ?_⟩
  obtain ⟨⟨result, r⟩, hparse, hout⟩ := parseHeaders_ready
    (BufferedReader.ready_source hs hcap) maxRead .empty
  -- The headers end at the first empty line, which may be one inside of a value.
  obtain ⟨lines, rest', hpar, hpre, hrest, hlines⟩ := paragraph_lines_eq_iff crlf_ne_nil
    (fun l hl => isLine_crlf (not_crlf_of_mem_wireLines hl)) rest
  have hcontent : Reader.content (BufferedReader.new s capacity) =
      (wireLines order).flatMap (· ++ crlf) ++ (crlf ++ rest) := by
    rw [← htext]
    exact hpending
  rw [hcontent, hpar] at hout
  have hlt : 0 + linesLength lines < maxRead := by
    rw [Nat.zero_add]
    refine Nat.lt_of_le_of_lt (linesLength_le hpre) ?_
    rwa [← htext]
  have hresult := hout.result
  have hr := hout.content hlt
  rw [if_pos hlt, foldl_addLine_eq] at hresult
  dsimp only [Option.getD_some] at hresult hr
  subst hresult
  constructor
  · -- All that is behind the headers is left, so no line of them is empty.
    rintro ⟨headers', r', h, hkeys, hcontent'⟩
    cases h.symm.trans hparse
    have hnil := hrest.1 (hr.symm.trans hcontent')
    rw [hlines hnil] at hkeys
    exact contained_of_mem_keys_iff horder hnil hkeys
  · intro h
    have hnil := h.nil_not_mem horder
    refine ⟨_, _, hparse, ?_, hr.trans (hrest.2 hnil)⟩
    rw [hlines hnil]
    exact h.mem_keys_iff horder

/-- A value with an end of line, and a line behind it that is none of a key. -/
theorem headers_contained_iff_fold :
    let headers : Headers := ⟨[(sv "Via", [sv "a\r\n b"])], by decide⟩
    ∃ w, writeHeaders Sink.empty headers.entries = some (none, w) ∧
      ∃ headers' r, parseHeaders (.new (⟨w.received ++ (crlf ++ sv "z"), [⟨3, none⟩], none⟩ : Source)
        4) 100 .empty = some (.ok headers', r) ∧ (∀ i, i ∈ headers'.keys ↔ i ∈ headers.keys) ∧
        Reader.content r = sv "z" := by
  intro headers
  have hcolon : ∀ e ∈ headers.entries, ∀ l ∈ (splitLines crlf (joinValues e.2)).tail,
      ch ':' ∉ l := by
    decide
  have hcontained : Contained headers := ⟨by decide, by decide, fun e he key val hl =>
    absurd (List.mem_append_right key List.mem_cons_self) (hcolon e he _ hl)⟩
  obtain ⟨w, hw, h⟩ := headers_contained_iff headers headers.entries (.refl _)
  cases hw.symm.trans rfl
  exact ⟨_, hw, (h _ _ 4 100 (by simp [Source.Prompt]) rfl (by decide) (by decide)).2 hcontained⟩

/-- A value that adds a key, and one that ends the headers. -/
theorem headers_injected :
    let added : Headers := ⟨[(sv "A", [sv "\r\nB:"])], by decide⟩
    let ended : Headers := ⟨[(sv "A", [sv "\r\n\r\nB"])], by decide⟩
    (∃ w headers' r, writeHeaders Sink.empty added.entries = some (none, w) ∧
      parseHeaders (.new (⟨w.received ++ crlf, [], none⟩ : Source) 16) 100 .empty =
        some (.ok headers', r) ∧ sv "b" ∈ headers'.keys ∧ sv "b" ∉ added.keys) ∧
    ∃ w headers' r, writeHeaders Sink.empty ended.entries = some (none, w) ∧
      parseHeaders (.new (⟨w.received ++ crlf, [], none⟩ : Source) 16) 100 .empty =
        some (.ok headers', r) ∧ Reader.content r = sv "B\r\n\r\n" :=
  ⟨⟨_, _, _, rfl, rfl, by decide, by decide⟩, ⟨_, _, _, rfl, rfl, by decide⟩⟩

end Cppnet.Http
