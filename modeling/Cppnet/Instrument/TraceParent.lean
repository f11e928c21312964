import Cppnet.Instrument.TraceContext
import Mathlib.Data.List.GetD

/-!
# What is taken for a `traceparent`

The header of version 0 is the version, the trace id, the id of the span and the flags, in hexadecimal
(`IsTraceparent`). `parse` reads the ids with a check that they are digits, but the version and the flags two
characters at a time without one: any two are flags, and some that are not `00` are the version 0
(`decodeByte_eq_zero_iff`).

* `parse_eq_some_iff`: the headers that are parsed, and their spans;
* `parse_validates_iff`: which of them are not in the format.
-/

namespace Cppnet.TraceContext

open Http Lib

/-- A header in the format of version 0, and the span it is of. -/
def IsTraceparent (v : Bytes) (s : Span) : Prop :=
  ∃ version trace parent flags : Bytes, ∃ parentId : SpanId,
    v = version ++ ch '-' :: (trace ++ ch '-' :: (parent ++ ch '-' :: flags)) ∧
    Hex.Denotes version [0] ∧ Hex.Denotes trace s.traceId ∧
    s.parentSpanId = some parentId ∧ Hex.Denotes parent parentId ∧ Hex.Denotes flags [s.flags]

/-- The characters that are taken for a digit of the value zero, as the high one of a byte, where
    only the lower half of its value counts. -/
def zeroHighs : Bytes :=
  [0x00, 0x10, 0x20, 0x30, 0x40, 0x50, 0x60, 0x67, 0x77, 0x80, 0x90, 0xa0, 0xb0, 0xc0, 0xd0, 0xe0, 0xf0]

theorem parse_half (c : Byte) :
    (Hex.parseDigit (Hex.ensureUppercase c) &&& 0x0f = 0 ↔ c ∈ zeroHighs) ∧
      (Hex.parseDigit (Hex.ensureUppercase c) = 0 ↔ c = ch '0' ∨ c = ch 'P') := by
  revert c
  refine forall_byte ?_
  decide +kernel

/-- What is taken for the version 0. -/
theorem decodeByte_eq_zero_iff (hi lo : Byte) :
    Hex.decodeByte hi lo = 0 ↔ hi ∈ zeroHighs ∧ (lo = ch '0' ∨ lo = ch 'P') := by
  have hhigh : ∀ c : Byte, c <<< 4 = 0 ↔ c &&& 0x0f = 0 := forall_byte (by decide +kernel)
  have hor : ∀ a b : Byte, a ||| b = 0 ↔ a = 0 ∧ b = 0 := by
    intro a b
    rw [← UInt8.toNat_inj, UInt8.toNat_or, ← UInt8.toNat_inj, ← UInt8.toNat_inj]
    exact Nat.or_eq_zero_iff
  rw [Hex.decodeByte, hor, hhigh, (parse_half hi).1, (parse_half lo).2]

/-! ## The headers that are parsed -/

/-- An id is read if it is the digits of one. -/
theorem decodeId_eq_some_iff {n : ℕ} (hn : n ≤ 2 ^ 31) {raw : Bytes} (hraw : raw.length = n * 2)
    (id : { id : Bytes // id.length = n }) : decodeId n raw = some id ↔ Hex.Denotes raw id := by
  have hs : raw.length = (List.replicate n (0 : Byte)).length * 2 := by
    rw [List.length_replicate, hraw]
  obtain ⟨o, ho, hiff⟩ := Hex.decodeTo_spec hs (by rwa [List.length_replicate])
  rw [decodeId, ho, Option.join_some, ← hiff]
  obtain ⟨id, hid⟩ := id
  cases o with
  | none => simp
  | some bytes =>
    rw [Option.bind_some]
    split
    · simp
    · next hlen =>
      refine iff_of_false (Option.some_ne_none _).symm fun h => hlen ?_
      rw [Option.some.inj h, hid]

/-- A text with a byte at a position. -/
theorem exists_of_getD {s : Bytes} {n : ℕ} {c : Byte} (hn : n < s.length) (h : s.getD n 0 = c) :
    ∃ a b, s = a ++ c :: b ∧ a.length = n := by
  rw [List.getD_eq_getElem _ _ hn] at h
  refine ⟨s.take n, s.drop (n + 1), ?_, ?_⟩
  · rw [← h, List.getElem_cons_drop, List.take_append_drop]
  · rw [List.length_take]
    omega

/-- The parts of what is behind the version. -/
theorem parseVersion00_parts {rest : Bytes} {s : Span} (h : parseVersion00 rest = some s) :
    ∃ trace parent f g, rest = trace ++ ch '-' :: (parent ++ ch '-' :: [f, g]) ∧
      trace.length = traceId00Length ∧ parent.length = parentId00Length := by
  rw [parseVersion00] at h
  dsimp only at h
  split_ifs at h with hlen hfirst hsecond
  rw [not_not] at hlen hfirst hsecond
  have hlen52 : rest.length = 52 := hlen
  obtain ⟨trace, rest, rfl, htrace⟩ := exists_of_getD (by rw [hlen52]; decide) hfirst
  have hsecond' : rest.getD parentId00Length 0 = ch '-' := by
    rw [← hsecond, ← htrace, List.getD_append_right _ _ _ _ (by omega)]
    have hpos : trace.length + 1 + parentId00Length - trace.length = parentId00Length + 1 := by omega
    rw [hpos, List.getD_cons_succ]
  rw [List.length_append, List.length_cons, htrace] at hlen52
  have hrest : rest.length = 19 := by
    have hthirty : traceId00Length = 32 := rfl
    omega
  obtain ⟨parent, flags, rfl, hparent⟩ := exists_of_getD (by rw [hrest]; decide) hsecond'
  have hflags : flags.length = 2 := by
    have hsixteen : parentId00Length = 16 := rfl
    rw [List.length_append, List.length_cons, hparent] at hrest
    omega
  obtain ⟨f, g, rfl⟩ := List.length_eq_two.1 hflags
  exact ⟨trace, parent, f, g, rfl, htrace, hparent⟩

/-- What is parsed: two characters taken for the version 0, the digits of the ids, and any two
    characters, with dashes between them. -/
theorem parse_eq_some_iff {headers : Headers} {v : Bytes} (hget : headers.get (sv "traceparent") = some v)
    (s : Span) :
    parse headers = some s ↔ ∃ a b trace parent f g, ∃ (traceId : TraceId) (parentId : SpanId),
      v = a :: b :: ch '-' :: (trace ++ ch '-' :: (parent ++ ch '-' :: [f, g])) ∧
      (a ∈ zeroHighs ∧ (b = ch '0' ∨ b = ch 'P')) ∧ Hex.Denotes trace traceId ∧
      Hex.Denotes parent parentId ∧ s = spanOf headers traceId parentId (Hex.decodeByte f g) := by
  rw [parse, hget, Option.bind_some]
  constructor
  · intro h
    obtain ⟨s₀, hs₀, rfl⟩ := Option.map_eq_some_iff.1 h
    rw [parseTraceparent] at hs₀
    rcases find_zero_cases v (ch '-') with ⟨-, hfind⟩ | ⟨version, rest, rfl, -, hfind⟩
    · rw [hfind] at hs₀
      cases hs₀
    have hversion : substr (version ++ ch '-' :: rest) 0 version.length = version := List.take_left
    rw [hfind] at hs₀
    dsimp only at hs₀
    rw [hversion, drop_append_cons] at hs₀
    split_ifs at hs₀ with hlen hzero
    obtain ⟨a, b, rfl⟩ := List.length_eq_two.1 (not_not.1 hlen)
    obtain ⟨trace, parent, f, g, rfl, htrace, hparent⟩ := parseVersion00_parts hs₀
    rw [parseVersion00_eq htrace hparent] at hs₀
    obtain ⟨traceId, htraceId, hs₀⟩ := Option.bind_eq_some_iff.1 hs₀
    obtain ⟨parentId, hparentId, hs₀⟩ := Option.bind_eq_some_iff.1 hs₀
    cases hs₀
    exact ⟨a, b, trace, parent, f, g, traceId, parentId, rfl, (decodeByte_eq_zero_iff a b).1 hzero,
      (decodeId_eq_some_iff (by decide) htrace traceId).1 htraceId,
      (decodeId_eq_some_iff (by decide) hparent parentId).1 hparentId, rfl⟩
  · rintro ⟨a, b, trace, parent, f, g, traceId, parentId, rfl, hzero, htraceId, hparentId, rfl⟩
    have htrace : trace.length = traceId00Length := htraceId.length_eq.trans (by rw [traceId.2]; rfl)
    have hparent : parent.length = parentId00Length := hparentId.length_eq.trans (by rw [parentId.2]; rfl)
    have hdash : ch '-' ∉ [a, b] := by
      rw [List.mem_cons, List.mem_singleton, not_or]
      constructor
      · rintro rfl
        exact absurd hzero.1 (by decide)
      · rintro rfl
        exact absurd hzero.2 (by decide)
    have hfind := find_zero_eq_some (trace ++ ch '-' :: (parent ++ ch '-' :: [f, g])) hdash
    have hversion : substr ([a, b] ++ ch '-' :: (trace ++ ch '-' :: (parent ++ ch '-' :: [f, g]))) 0 2 =
        [a, b] := rfl
    have hzero' : Hex.decodeByte ([a, b].getD 0 0) ([a, b].getD 1 0) = 0 :=
      (decodeByte_eq_zero_iff a b).2 hzero
    change (parseTraceparent ([a, b] ++ ch '-' :: _)).map _ = _
    rw [parseTraceparent, hfind]
    dsimp only [List.length_cons, List.length_nil]
    rw [hversion, if_neg (by simp [versionLength]), if_pos hzero']
    change (parseVersion00 (trace ++ ch '-' :: (parent ++ ch '-' :: [f, g]))).map _ = _
    rw [parseVersion00_eq htrace hparent, (decodeId_eq_some_iff (by decide) htrace traceId).2 htraceId,
      (decodeId_eq_some_iff (by decide) hparent parentId).2 hparentId]
    rfl

/-! ## The headers in the format -/

theorem digit_eq_zero_iff (c : Byte) : digit 16 c = some 0 ↔ c = ch '0' := by
  revert c
  refine forall_byte ?_
  decide +kernel

theorem denotes_zero_iff (version : Bytes) : Hex.Denotes version [0] ↔ version = [ch '0', ch '0'] := by
  constructor
  · intro h
    cases h with
    | @cons hi lo b x y s bytes hhi hlo hb hs =>
      cases hs
      obtain ⟨rfl, rfl⟩ : x = 0 ∧ y = 0 := by
        change 0 = 16 * x + y at hb
        omega
      rw [(digit_eq_zero_iff hi).1 hhi, (digit_eq_zero_iff lo).1 hlo]
  · rintro rfl
    exact .cons ((digit_eq_zero_iff _).2 rfl) ((digit_eq_zero_iff _).2 rfl) rfl .nil

theorem denotes_byte_iff (f g flags : Byte) :
    Hex.Denotes [f, g] [flags] ↔
      (digit 16 f).isSome ∧ (digit 16 g).isSome ∧ flags = Hex.decodeByte f g := by
  constructor
  · intro h
    cases h with
    | cons hhi hlo hb hs =>
      refine ⟨by rw [hhi]; rfl, by rw [hlo]; rfl, ?_⟩
      exact UInt8.toNat_inj.1 (hb.trans (Hex.decodeByte_digits hhi hlo).1.symm)
  · rintro ⟨hf, hg, rfl⟩
    obtain ⟨x, hx⟩ := Option.isSome_iff_exists.1 hf
    obtain ⟨y, hy⟩ := Option.isSome_iff_exists.1 hg
    exact .cons hx hy (Hex.decodeByte_digits hx hy).1 .nil

/-- The parts of a header that is parsed are those of the format, if it is in the format. -/
theorem isTraceparent_iff {a b f g : Byte} {trace parent : Bytes} {traceId : TraceId} {parentId : SpanId}
    (htrace : Hex.Denotes trace traceId) (hparent : Hex.Denotes parent parentId) (headers : Headers) :
    IsTraceparent (a :: b :: ch '-' :: (trace ++ ch '-' :: (parent ++ ch '-' :: [f, g])))
        (spanOf headers traceId parentId (Hex.decodeByte f g)) ↔
      a = ch '0' ∧ b = ch '0' ∧ (digit 16 f).isSome ∧ (digit 16 g).isSome := by
  constructor
  · rintro ⟨version, trace', parent', flags, parentId', heq, hversion, htrace', hid, hparent', hflags⟩
    cases hid
    rw [(denotes_zero_iff version).1 hversion] at heq
    injection heq with ha heq
    injection heq with hb heq
    injection heq with _ heq
    have hafter := (List.append_inj heq (htrace.length_eq.trans htrace'.length_eq.symm)).2
    injection hafter with _ hafter
    have hlast := (List.append_inj hafter (hparent.length_eq.trans hparent'.length_eq.symm)).2
    injection hlast with _ hlast
    subst hlast
    obtain ⟨hf, hg, -⟩ := (denotes_byte_iff f g _).1 hflags
    exact ⟨ha, hb, hf, hg⟩
  · rintro ⟨rfl, rfl, hf, hg⟩
    exact ⟨[ch '0', ch '0'], trace, parent, [f, g], parentId, rfl, (denotes_zero_iff _).2 rfl, htrace, rfl,
      hparent, (denotes_byte_iff f g _).2 ⟨hf, hg, rfl⟩⟩

/-- Every span that is parsed is that of a header in the format, if and only if, where the header has the
    dashes of the format, and hexadecimal digits for the ids, and its first two characters are taken for the
    version 0, these are `00`, and the last two are hexadecimal digits. -/
theorem parse_validates_iff {headers : Headers} {v : Bytes}
    (hget : headers.get (sv "traceparent") = some v) :
    (∀ s, parse headers = some s → IsTraceparent v s) ↔
      ∀ a b trace parent f g, v = a :: b :: ch '-' :: (trace ++ ch '-' :: (parent ++ ch '-' :: [f, g])) →
        trace.length = 32 → parent.length = 16 → (∀ c ∈ trace ++ parent, (digit 16 c).isSome) →
        a ∈ zeroHighs → (b = ch '0' ∨ b = ch 'P') →
        a = ch '0' ∧ b = ch '0' ∧ (digit 16 f).isSome ∧ (digit 16 g).isSome := by
  constructor
  · rintro h a b trace parent f g rfl htrace hparent hdigits ha hb
    rw [List.forall_mem_append] at hdigits
    obtain ⟨traceId, htraceId⟩ := Hex.exists_denotes_iff.2 ⟨by omega, hdigits.1⟩
    obtain ⟨parentId, hparentId⟩ := Hex.exists_denotes_iff.2 ⟨by omega, hdigits.2⟩
    have htraceLen : traceId.length = 16 := by
      have hlen := htraceId.length_eq
      omega
    have hparentLen : parentId.length = 8 := by
      have hlen := hparentId.length_eq
      omega
    have htraceId' : Hex.Denotes trace (⟨traceId, htraceLen⟩ : TraceId) := htraceId
    have hparentId' : Hex.Denotes parent (⟨parentId, hparentLen⟩ : SpanId) := hparentId
    have hs := h _ ((parse_eq_some_iff hget _).2
      ⟨a, b, trace, parent, f, g, _, _, rfl, ⟨ha, hb⟩, htraceId', hparentId', rfl⟩)
    exact (isTraceparent_iff htraceId' hparentId' headers).1 hs
  · intro h s hs
    obtain ⟨a, b, trace, parent, f, g, traceId, parentId, rfl, hzero, htraceId, hparentId, rfl⟩ :=
      (parse_eq_some_iff hget s).1 hs
    have htrace : trace.length = 32 := htraceId.length_eq.trans (by rw [traceId.2])
    have hparent : parent.length = 16 := hparentId.length_eq.trans (by rw [parentId.2])
    have hdigits := List.forall_mem_append.2
      ⟨(Hex.exists_denotes_iff.1 ⟨_, htraceId⟩).2, (Hex.exists_denotes_iff.1 ⟨_, hparentId⟩).2⟩
    exact (isTraceparent_iff htraceId hparentId headers).2
      (h a b trace parent f g rfl htrace hparent hdigits hzero.1 hzero.2)

/-- A header in the format. -/
theorem parse_validates_iff_format :
    ∃ headers : Headers, headers.get (sv "traceparent") =
        some (sv "00-0123456789abcdef0123456789ABCDEF-0123456789abcdef-01") ∧
      ∀ s, parse headers = some s →
        IsTraceparent (sv "00-0123456789abcdef0123456789ABCDEF-0123456789abcdef-01") s := by
  refine ⟨.set .empty (sv "traceparent") (sv "00-0123456789abcdef0123456789ABCDEF-0123456789abcdef-01"),
    by decide +kernel, (parse_validates_iff (by decide +kernel)).2 ?_⟩
  intro a b trace parent f g heq htrace hparent _ _ _
  have hstart := congrArg (·.take 2) heq
  have hend := congrArg (·.drop 53) heq
  simp only [List.take_succ_cons, List.take_zero, List.drop_succ_cons, List.drop_append, htrace,
    hparent] at hstart hend
  have hend' : [ch '0', ch '1'] = [f, g] := by
    refine Eq.trans ?_ (hend.trans ?_)
    · decide +kernel
    · simp [List.drop_eq_nil_of_le, htrace, hparent]
  have hstart' : [ch '0', ch '0'] = [a, b] := Eq.trans (by decide +kernel) hstart
  cases hstart'
  cases hend'
  exact ⟨rfl, rfl, by decide, by decide⟩

/-- A version and flags that are not hexadecimal digits. -/
theorem parse_not_validated :
    ∃ (headers : Headers) (v : Bytes) (s : Span), headers.get (sv "traceparent") = some v ∧
      v = sv "PP-0123456789abcdef0123456789abcdef-0123456789abcdef-zz" ∧ parse headers = some s ∧
      s.flags = 0x33 ∧ ¬IsTraceparent v s := by
  let v := sv "PP-0123456789abcdef0123456789abcdef-0123456789abcdef-zz"
  let headers : Headers := .set .empty (sv "traceparent") v
  have hparse : (parse headers).map (·.flags) = some 0x33 := by decide +kernel
  obtain ⟨s, hs, hflags⟩ := Option.map_eq_some_iff.1 hparse
  refine ⟨headers, v, s, by decide +kernel, rfl, hs, hflags, ?_⟩
  rintro ⟨version, trace, parent, flags, parentId, heq, hversion, -⟩
  rw [(denotes_zero_iff version).1 hversion] at heq
  have hfirst := congrArg (·.take 1) heq
  exact absurd hfirst (by
    change v.take 1 ≠ [ch '0']
    decide +kernel)

end Cppnet.TraceContext
