import Cppnet.Encoding.Hex
import Cppnet.Http.Headers

/-!
# Trace context

`instrument/opentelemetry/tracecontext.cpp`: a span goes from one party to the next in the headers
`traceparent` and `tracestate`. In version 0, the first one is the version, the trace id, the id
of the span and the flags in hexadecimal, separated by `-`, 55 characters in all.

`parse` reads every such header (`parse_traceparent`). But `inject` takes the length of the whole
header for the length of the trace id, so all that comes behind the trace id is written outside of
the header, and what is left in it is never parsed (`inject_not_propagates`).
-/

namespace Cppnet.TraceContext

open Http Lib

/-! ## Spans -/

/-- `trace_id_t`. -/
abbrev TraceId := { id : Bytes // id.length = 16 }

/-- `span_id_t`. -/
abbrev SpanId := { id : Bytes // id.length = 8 }

/-- `span_kind`. -/
inductive SpanKind
  | unspecified
  | internal
  | server
  | client
  | producer
  | consumer
  deriving DecidableEq

/-- `span`, of which the context is read and written. -/
structure Span where
  version : Byte
  traceId : TraceId
  parentSpanId : Option SpanId
  spanId : SpanId
  traceState : Bytes
  flags : Byte
  kind : SpanKind
  deriving DecidableEq

/-! ## Lengths -/

/-- `version_length`. -/
def versionLength : ℕ := 2

/-- `trace_id_00_length`. -/
def traceId00Length : ℕ := 32

/-- `parent_id_00_length`. -/
def parentId00Length : ℕ := 16

/-- `flags_00_length`. -/
def flags00Length : ℕ := 2

/-- `traceparent_00_length`. -/
def traceparent00Length : ℕ :=
  versionLength + 1 + traceId00Length + 1 + parentId00Length + 1 + flags00Length

/-! ## Parsing -/

/-- `decode_to` of an id of `n` bytes. -/
def decodeId (n : ℕ) (raw : Bytes) : Option { id : Bytes // id.length = n } :=
  (Hex.decodeTo raw (List.replicate n 0)).join.bind fun id =>
    if h : id.length = n then some ⟨id, h⟩ else none

/-- `parse_version_00`. -/
def parseVersion00 (traceparent : Bytes) : Option Span :=
  let expectedLength := traceId00Length + 1 + parentId00Length + 1 + versionLength
  if traceparent.length ≠ expectedLength then none
  else if traceparent.getD traceId00Length 0 ≠ ch '-' then none
  else if traceparent.getD (traceId00Length + 1 + parentId00Length) 0 ≠ ch '-' then none
  else do
    let traceIdRaw := substr traceparent 0 traceId00Length
    let parentIdRaw := substr traceparent (traceId00Length + 1) parentId00Length
    let flagsRaw := substr traceparent (traceId00Length + 1 + parentId00Length + 1) flags00Length
    let traceId ← decodeId 16 traceIdRaw
    let parentSpanId ← decodeId 8 parentIdRaw
    some {
      version := 0
      traceId
      parentSpanId := some parentSpanId
      spanId := ⟨List.replicate 8 0, rfl⟩
      traceState := []
      flags := Hex.decodeByte (flagsRaw.getD 0 0) (flagsRaw.getD 1 0)
      kind := .unspecified }

/-- The version of a header, and then the rest of it. -/
def parseTraceparent (tp : Bytes) : Option Span :=
  match find tp (ch '-') 0 with
  | none => none
  | some versionEnd =>
    let versionRaw := substr tp 0 versionEnd
    if versionRaw.length ≠ versionLength then none
    else if Hex.decodeByte (versionRaw.getD 0 0) (versionRaw.getD 1 0) = 0 then
      parseVersion00 (tp.drop (versionEnd + 1))
    else none

/-- `parse`. -/
def parse (headers : Headers) : Option Span :=
  ((headers.get (sv "traceparent")).bind parseTraceparent).map fun s =>
    { s with kind := .server, traceState := (headers.get (sv "tracestate")).getD [] }

/-! ## Injecting -/

/-- The string `inject_version_00` makes of a span. -/
def traceparent00 (span : Span) : Hex.Cells :=
  let traceparent : Hex.Cells := ⟨List.replicate traceparent00Length (ch '0'), []⟩
  let traceparent := Hex.encodeByteTo span.version traceparent 0
  let traceparent := traceparent.put versionLength (ch '-')
  let traceparent := Hex.encodeTo span.traceId traceparent (versionLength + 1)
  let traceparent := traceparent.put (versionLength + 1 + traceparent00Length) (ch '-')
  let traceparent :=
    Hex.encodeTo span.spanId traceparent (versionLength + 1 + traceparent00Length + 1)
  let traceparent :=
    traceparent.put (versionLength + 1 + traceparent00Length + 1 + parentId00Length) (ch '-')
  Hex.encodeByteTo span.flags traceparent
    (versionLength + 1 + traceparent00Length + 1 + parentId00Length + 1)

/-- `inject_version_00`. -/
def injectVersion00 (span : Span) (headers : Headers) : Headers :=
  let headers := headers.set (sv "traceparent") (traceparent00 span).chars
  if span.traceState ≠ [] then headers.set (sv "tracestate") span.traceState else headers

/-- `inject`. -/
def inject (span : Span) (headers : Headers) : Headers :=
  if span.version = 0 then injectVersion00 span headers else headers

/-! ## Headers in the format of version 0 -/

/-- The header of a span, as `parse` expects it. -/
def traceparentText (traceId : TraceId) (spanId : SpanId) (flags : Byte) : Bytes :=
  sv "00-" ++ (Hex.text traceId ++ ch '-' :: (Hex.text spanId ++ ch '-' :: Hex.byteText flags))

theorem decodeId_text {n : ℕ} (id : { id : Bytes // id.length = n }) (hn : n ≤ 2 ^ 31) :
    decodeId n (Hex.text id) = some id := by
  obtain ⟨id, rfl⟩ := id
  rw [decodeId, Hex.decodeTo_text _ List.length_replicate hn, Option.join_some, Option.bind_some, dif_pos rfl]

/-- Behind the version. -/
theorem parseTraceparent_eq (rest : Bytes) : parseTraceparent (sv "00-" ++ rest) = parseVersion00 rest := by
  have hfind : find (sv "00-" ++ rest) (ch '-') 0 = some 2 :=
    find_zero_eq_some rest (show ch '-' ∉ sv "00" by decide)
  have hsub : substr (sv "00-" ++ rest) 0 2 = sv "00" := rfl
  rw [parseTraceparent, hfind]
  dsimp only
  rw [hsub, if_neg (by decide), if_pos (by decide)]
  rfl

/-- The parts of a header, at their positions. -/
theorem parseVersion00_eq {trace parent : Bytes} {hi lo : Byte} (htrace : trace.length = traceId00Length)
    (hparent : parent.length = parentId00Length) :
    parseVersion00 (trace ++ ch '-' :: (parent ++ ch '-' :: [hi, lo])) =
      (decodeId 16 trace).bind fun traceId => (decodeId 8 parent).bind fun parentSpanId => some {
        version := 0
        traceId
        parentSpanId := some parentSpanId
        spanId := ⟨List.replicate 8 0, rfl⟩
        traceState := []
        flags := Hex.decodeByte hi lo
        kind := .unspecified } := by
  -- The ids are of fixed lengths, so that the dashes are where they are looked for.
  have hlen : (trace ++ ch '-' :: (parent ++ ch '-' :: [hi, lo])).length =
      trace.length + 1 + parent.length + 1 + versionLength := by
    simp only [List.length_append, List.length_cons, List.length_nil, versionLength]
    omega
  have hfirst : (trace ++ ch '-' :: (parent ++ ch '-' :: [hi, lo])).getD trace.length 0 = ch '-' := by
    simp
  have htext : trace ++ ch '-' :: (parent ++ ch '-' :: [hi, lo]) =
      (trace ++ ch '-' :: parent) ++ ch '-' :: [hi, lo] := by
    simp
  have hpos : trace.length + 1 + parent.length = (trace ++ ch '-' :: parent).length := by
    simp only [List.length_append, List.length_cons]
    omega
  have hsecond : (trace ++ ch '-' :: (parent ++ ch '-' :: [hi, lo])).getD
      (trace.length + 1 + parent.length) 0 = ch '-' := by
    rw [hpos, htext]
    simp
  have hflags : substr (trace ++ ch '-' :: (parent ++ ch '-' :: [hi, lo]))
      (trace.length + 1 + parent.length + 1) flags00Length = [hi, lo] := by
    rw [hpos, htext, substr_append_cons]
    rfl
  have htraceRaw : substr (trace ++ ch '-' :: (parent ++ ch '-' :: [hi, lo])) 0 trace.length = trace :=
    List.take_left
  have hparentRaw : substr (trace ++ ch '-' :: (parent ++ ch '-' :: [hi, lo])) (trace.length + 1)
      parent.length = parent := by
    rw [substr_append_cons, List.take_left]
  simp only [parseVersion00, ← htrace, ← hparent, hlen, hfirst, hsecond, hflags, htraceRaw, hparentRaw,
    ne_eq, not_true_eq_false, if_false]
  rfl

/-- A header in the format is parsed. -/
theorem parse_traceparent {headers : Headers} {traceId : TraceId} {spanId : SpanId} {flags : Byte}
    (h : headers.get (sv "traceparent") = some (traceparentText traceId spanId flags)) :
    parse headers = some {
      version := 0
      traceId
      parentSpanId := some spanId
      spanId := ⟨List.replicate 8 0, rfl⟩
      traceState := (headers.get (sv "tracestate")).getD []
      flags
      kind := .server } := by
  have htrace : (Hex.text traceId).length = traceId00Length := by
    rw [Hex.length_text, traceId.2]
    rfl
  have hparent : (Hex.text spanId).length = parentId00Length := by
    rw [Hex.length_text, spanId.2]
    rfl
  obtain ⟨-, -, hflags⟩ := Hex.decodeByte_encodeByte flags
  rw [parse, h, Option.bind_some, traceparentText, parseTraceparent_eq, Hex.byteText,
    parseVersion00_eq htrace hparent, decodeId_text _ (by decide), decodeId_text _ (by decide), hflags]
  rfl

/-! ## The header that is injected -/

/-- What `inject` leaves of the header. -/
theorem chars_traceparent00 {span : Span} (hversion : span.version = 0) :
    (traceparent00 span).chars = sv "00-" ++ (Hex.text span.traceId ++ List.replicate 20 (ch '0')) := by
  have htrace : (List.replicate 32 (ch '0')).length = (span.traceId : Bytes).length * 2 := by
    rw [span.traceId.2]
    rfl
  have hstart : ((Hex.encodeByteTo span.version ⟨List.replicate traceparent00Length (ch '0'), []⟩ 0).put
      versionLength (ch '-')).chars =
      sv "00-" ++ (List.replicate 32 (ch '0') ++ List.replicate 20 (ch '0')) := by
    rw [hversion]
    rfl
  have hinside := Hex.chars_encodeTo hstart htrace
  have hlen : (sv "00-" ++ (Hex.text span.traceId ++ List.replicate 20 (ch '0'))).length = 55 := by
    simp only [List.length_append, Hex.length_text, span.traceId.2, List.length_replicate]
    rfl
  -- The rest is written from the position 58 on.
  refine Hex.Cells.chars_put_of_le (Hex.Cells.chars_put_of_le (Hex.Cells.chars_put_of_le
    (Hex.chars_encodeTo_of_le (Hex.Cells.chars_put_of_le hinside ?_ _) ?_ _) ?_ _) ?_ _) ?_ _
  all_goals
    rw [hlen]
    decide

theorem get_inject {span : Span} (hversion : span.version = 0) :
    (inject span .empty).get (sv "traceparent") = some (traceparent00 span).chars := by
  have hkey : Util.lower (sv "tracestate") ≠ Util.lower (sv "traceparent") := by decide
  rw [inject, if_pos hversion, injectVersion00]
  split_ifs with hstate
  · rw [Headers.get_set, if_neg hkey, Headers.get_set, if_pos rfl]
  · rw [Headers.get_set, if_pos rfl]

/-- The span that is parsed from the headers a span is injected into is its child, and nothing
    is written outside of the header. -/
structure Propagates (span : Span) : Prop where
  parses : ∃ s, parse (inject span .empty) = some s ∧ s.traceId = span.traceId ∧ s.flags = span.flags ∧
    s.parentSpanId = some span.spanId ∧ s.traceState = span.traceState
  inside : ∀ i ∈ (traceparent00 span).written, i < traceparent00Length

/-- No span of version 0 is propagated: there is no span in the headers it is injected into, and
    there are writes outside of the header. -/
theorem inject_not_propagates (span : Span) (hversion : span.version = 0) :
    parse (inject span .empty) = none ∧
      (∃ i ∈ (traceparent00 span).written, traceparent00Length ≤ i) ∧ ¬Propagates span := by
  have hparse : parse (inject span .empty) = none := by
    have htrace : (Hex.text span.traceId).length = traceId00Length := by
      rw [Hex.length_text, span.traceId.2]
      rfl
    have hlen : (Hex.text span.traceId ++ List.replicate 20 (ch '0')).length = 52 := by
      rw [List.length_append, htrace]
      rfl
    have hchar : (Hex.text span.traceId ++ List.replicate 20 (ch '0')).getD traceId00Length 0 = ch '0' := by
      rw [← htrace]
      simp
    rw [parse, get_inject hversion, Option.bind_some, chars_traceparent00 hversion, parseTraceparent_eq,
      parseVersion00]
    dsimp only
    rw [hlen, if_neg (by decide), hchar, if_pos (by decide), Option.map_none]
  have houtside : ∃ i ∈ (traceparent00 span).written, traceparent00Length ≤ i := by
    refine ⟨versionLength + 1 + traceparent00Length, ?_, by decide⟩
    refine Hex.Cells.mem_written_put (Hex.Cells.mem_written_put (Hex.Cells.mem_written_put ?_))
    exact Hex.mem_written_encodeTo (Hex.Cells.self_mem_written_put _ _ _)
  refine ⟨hparse, houtside, fun h => ?_⟩
  obtain ⟨i, hi, hle⟩ := houtside
  exact absurd (h.inside i hi) (Nat.not_lt.2 hle)

/-- The span of a header. -/
def spanOf (headers : Headers) (traceId : TraceId) (parentId : SpanId) (flags : Byte) : Span where
  version := 0
  traceId
  parentSpanId := some parentId
  spanId := ⟨List.replicate 8 0, rfl⟩
  traceState := (headers.get (sv "tracestate")).getD []
  flags
  kind := .server

/-- A span whose ids are zeros. -/
def Span.zeros : Span where
  version := 0
  traceId := ⟨List.replicate 16 0, rfl⟩
  parentSpanId := none
  spanId := ⟨List.replicate 8 0, rfl⟩
  traceState := []
  flags := 1
  kind := .client

theorem inject_not_propagates_zeros : Span.zeros.version = 0 ∧ ¬Propagates Span.zeros :=
  ⟨rfl, (inject_not_propagates Span.zeros rfl).2.2⟩

/-- The first write outside of the header is to the position 58, and the header is not parsed. -/
theorem inject_zeros_outside :
    58 ∈ (traceparent00 Span.zeros).written ∧ parse (inject Span.zeros .empty) = none ∧
      ¬∀ span : Span, span.version = 0 → Propagates span := by
  have hmem : 58 ∈ (traceparent00 Span.zeros).written := by decide
  refine ⟨hmem, by decide, fun h => ?_⟩
  exact absurd ((h Span.zeros rfl).inside 58 hmem) (by decide)

end Cppnet.TraceContext
