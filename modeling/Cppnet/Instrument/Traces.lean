import Cppnet.Instrument.Record
import Cppnet.Instrument.TraceContext

/-!
# Traces

`instrument/opentelemetry/protocol.cpp`: the JSON of a request to export spans.

* `toJson_eq_iff_spans`: every request has a JSON, and two requests have the same one exactly when they are the same
  but for the versions of their spans, which are not written. Of the members that are left out for some spans, an
  empty trace state and no flags are the only values that are not written.
-/

namespace Cppnet.Otel

open Lib TraceContext

variable {δ : Type}

/-- `resource`. -/
@[ext] structure Resource (δ : Type) where
  attributes : List (KeyValue δ)
  droppedAttributesCount : UInt32

/-- `event`, with the count of its time. -/
@[ext] structure Event (δ : Type) where
  time : Int64
  name : Bytes
  attributes : List (KeyValue δ)
  droppedAttributesCount : UInt32

/-- `link`. -/
@[ext] structure Link (δ : Type) where
  traceId : TraceId
  spanId : SpanId
  traceState : Bytes
  attributes : List (KeyValue δ)
  droppedAttributesCount : UInt32
  flags : Byte

/-- `status_code`. -/
inductive StatusCode
  | unset
  | ok
  | error
  deriving DecidableEq

/-- `status`. -/
@[ext] structure Status where
  message : Bytes
  code : StatusCode

/-- `span`. -/
structure Span (δ : Type) extends TraceContext.Span where
  name : Bytes
  startTime : Int64
  endTime : Int64
  attributes : List (KeyValue δ)
  droppedAttributesCount : UInt32
  events : List (Event δ)
  droppedEventsCount : UInt32
  links : List (Link δ)
  droppedLinksCount : UInt32
  status : Status

/-- `instrumentation_scope`. -/
@[ext] structure InstrumentationScope (δ : Type) where
  name : Bytes
  version : Bytes
  attributes : List (KeyValue δ)
  droppedAttributesCount : UInt32

/-- `scope_spans`. -/
@[ext] structure ScopeSpans (δ : Type) where
  scope : InstrumentationScope δ
  spans : List (Span δ)
  schemaUrl : Bytes

/-- `resource_spans`. -/
@[ext] structure ResourceSpans (δ : Type) where
  resource : Resource δ
  scopeSpans : List (ScopeSpans δ)
  schemaUrl : Bytes

/-- `export_trace_service_request`. -/
@[ext] structure ExportTraceServiceRequest (δ : Type) where
  resourceSpans : List (ResourceSpans δ)

/-! ## `to_json` -/

/-- The number of a `span_kind`. -/
def spanKindNumber : SpanKind → Int64
  | .unspecified => 0
  | .internal => 1
  | .server => 2
  | .client => 3
  | .producer => 4
  | .consumer => 5

/-- The number of a `status_code`. -/
def StatusCode.number : StatusCode → Int64
  | .unset => 0
  | .ok => 1
  | .error => 2

def Resource.toJson (value : Resource δ) : Option (Json (Number δ)) :=
  record [
    .set (sv "attributes") (ofKeyValues value.attributes),
    .set (sv "droppedAttributesCount") (ofUInt32 value.droppedAttributesCount)]

def Event.toJson (value : Event δ) : Option (Json (Number δ)) :=
  record [
    .set (sv "timeUnixNano") (ofInt64 value.time),
    .set (sv "name") (ofString value.name),
    .set (sv "attributes") (ofKeyValues value.attributes),
    .set (sv "droppedAttributesCount") (ofUInt32 value.droppedAttributesCount)]

def Link.toJson (value : Link δ) : Option (Json (Number δ)) :=
  record [
    .set (sv "traceId") (ofHex value.traceId),
    .set (sv "spanId") (ofHex value.spanId),
    .set (sv "traceState") (ofString value.traceState),
    .set (sv "attributes") (ofKeyValues value.attributes),
    .set (sv "droppedAttributesCount") (ofUInt32 value.droppedAttributesCount),
    .set (sv "flags") (ofUInt8 value.flags)]

def Status.toJson (value : Status) : Option (Json (Number δ)) :=
  record [
    .set (sv "message") (ofString value.message),
    .set (sv "code") (ofInt64 value.code.number)]

def Span.toJson (value : Span δ) : Option (Json (Number δ)) :=
  record [
    .set (sv "traceId") (ofHex value.traceId),
    .set (sv "spanId") (ofHex value.spanId),
    .set (sv "name") (ofString value.name),
    .set (sv "kind") (ofInt64 (spanKindNumber value.kind)),
    .set (sv "startTimeUnixNano") (ofInt64 value.startTime),
    .set (sv "endTimeUnixNano") (ofInt64 value.endTime),
    .set (sv "attributes") (ofKeyValues value.attributes),
    .set (sv "droppedAttributesCount") (ofUInt32 value.droppedAttributesCount),
    .set (sv "events") (ofList Event.toJson value.events),
    .set (sv "droppedEventsCount") (ofUInt32 value.droppedEventsCount),
    .set (sv "links") (ofList Link.toJson value.links),
    .set (sv "droppedLinksCount") (ofUInt32 value.droppedLinksCount),
    .set (sv "status") value.status.toJson,
    .when (value.traceState ≠ []) (sv "traceState") (ofString value.traceState),
    .has value.parentSpanId (sv "parentSpanId") ofHex,
    .when (value.flags ≠ 0) (sv "flags") (ofUInt8 value.flags)]

def InstrumentationScope.toJson (value : InstrumentationScope δ) : Option (Json (Number δ)) :=
  record [
    .set (sv "name") (ofString value.name),
    .set (sv "version") (ofString value.version),
    .set (sv "attributes") (ofKeyValues value.attributes),
    .set (sv "droppedAttributesCount") (ofUInt32 value.droppedAttributesCount)]

def ScopeSpans.toJson (value : ScopeSpans δ) : Option (Json (Number δ)) :=
  record [
    .set (sv "scope") value.scope.toJson,
    .set (sv "spans") (ofList Span.toJson value.spans),
    .set (sv "schemaUrl") (ofString value.schemaUrl)]

def ResourceSpans.toJson (value : ResourceSpans δ) : Option (Json (Number δ)) :=
  record [
    .set (sv "resource") value.resource.toJson,
    .set (sv "scopeSpans") (ofList ScopeSpans.toJson value.scopeSpans),
    .set (sv "schemaUrl") (ofString value.schemaUrl)]

def ExportTraceServiceRequest.toJson (value : ExportTraceServiceRequest δ) : Option (Json (Number δ)) :=
  record [.set (sv "resourceSpans") (ofList ResourceSpans.toJson value.resourceSpans)]

/-! ## What is kept -/

/-- A span without its version. -/
def Span.written (value : Span δ) : Span δ := { value with version := 0 }

/-- Spans without their versions. -/
def ScopeSpans.written (value : ScopeSpans δ) : ScopeSpans δ := { value with spans := value.spans.map Span.written }

def ResourceSpans.written (value : ResourceSpans δ) : ResourceSpans δ :=
  { value with scopeSpans := value.scopeSpans.map ScopeSpans.written }

def ExportTraceServiceRequest.written (value : ExportTraceServiceRequest δ) : ExportTraceServiceRequest δ :=
  ⟨value.resourceSpans.map ResourceSpans.written⟩

theorem spanKindNumber_injective : Function.Injective spanKindNumber := by
  intro k k'
  cases k <;> cases k' <;> decide

theorem StatusCode.number_injective : Function.Injective StatusCode.number := by
  intro c c'
  cases c <;> cases c' <;> decide

theorem Resource.keeps_toJson : Keeps (Resource.toJson (δ := δ)) id :=
  keeps_record (by decide : [sv "attributes", sv "droppedAttributesCount"].Nodup) {
    map_key _ := rfl
    ne_none a := by
      simp [Assignment.set, keeps_ofKeyValues.ne_none, keeps_ofUInt32.ne_none]
    eq_iff a b := by
      simp [Assignment.set_inj, keeps_ofKeyValues.eq_iff, keeps_ofUInt32.eq_iff, Resource.ext_iff] }

theorem Event.keeps_toJson : Keeps (Event.toJson (δ := δ)) id :=
  keeps_record (by decide : [sv "timeUnixNano", sv "name", sv "attributes", sv "droppedAttributesCount"].Nodup) {
    map_key _ := rfl
    ne_none a := by
      simp [Assignment.set, keeps_ofInt64.ne_none, keeps_ofString.ne_none, keeps_ofKeyValues.ne_none,
        keeps_ofUInt32.ne_none]
    eq_iff a b := by
      simp [Assignment.set_inj, keeps_ofInt64.eq_iff, keeps_ofString.eq_iff, keeps_ofKeyValues.eq_iff,
        keeps_ofUInt32.eq_iff, Event.ext_iff] }

theorem Link.keeps_toJson : Keeps (Link.toJson (δ := δ)) id :=
  keeps_record
    (by decide : [sv "traceId", sv "spanId", sv "traceState", sv "attributes", sv "droppedAttributesCount",
      sv "flags"].Nodup) {
    map_key _ := rfl
    ne_none a := by
      simp [Assignment.set, keeps_ofHex.ne_none, keeps_ofString.ne_none, keeps_ofKeyValues.ne_none,
        keeps_ofUInt32.ne_none, keeps_ofUInt8.ne_none]
    eq_iff a b := by
      simp [Assignment.set_inj, keeps_ofHex.eq_iff, keeps_ofString.eq_iff, keeps_ofKeyValues.eq_iff,
        keeps_ofUInt32.eq_iff, keeps_ofUInt8.eq_iff, Link.ext_iff] }

theorem Status.keeps_toJson : Keeps (Status.toJson (δ := δ)) id :=
  keeps_record (by decide : [sv "message", sv "code"].Nodup) {
    map_key _ := rfl
    ne_none a := by
      simp [Assignment.set, keeps_ofInt64.ne_none, keeps_ofString.ne_none]
    eq_iff a b := by
      simp [Assignment.set_inj, keeps_ofInt64.eq_iff, keeps_ofString.eq_iff, StatusCode.number_injective.eq_iff,
        Status.ext_iff] }

theorem Span.keeps_toJson : Keeps (Span.toJson (δ := δ)) Span.written :=
  keeps_record
    (by decide : [sv "traceId", sv "spanId", sv "name", sv "kind", sv "startTimeUnixNano", sv "endTimeUnixNano",
      sv "attributes", sv "droppedAttributesCount", sv "events", sv "droppedEventsCount", sv "links",
      sv "droppedLinksCount", sv "status", sv "traceState", sv "parentSpanId", sv "flags"].Nodup) {
    map_key _ := rfl
    ne_none a := by
      simp [Assignment.set, Assignment.when, Assignment.has, keeps_ofHex.ne_none, keeps_ofString.ne_none,
        keeps_ofInt64.ne_none, keeps_ofKeyValues.ne_none, keeps_ofUInt32.ne_none, keeps_ofUInt8.ne_none,
        (keeps_ofList Event.keeps_toJson).ne_none, (keeps_ofList Link.keeps_toJson).ne_none,
        Status.keeps_toJson.ne_none]
    eq_iff a b := by
      obtain ⟨⟨⟩⟩ := a
      obtain ⟨⟨⟩⟩ := b
      simp [Assignment.set_inj, Assignment.when_ne_eq_iff keeps_ofString, Assignment.when_ne_eq_iff keeps_ofUInt8,
        Assignment.has_eq_iff keeps_ofHex, keeps_ofHex.eq_iff, keeps_ofString.eq_iff, keeps_ofInt64.eq_iff,
        keeps_ofKeyValues.eq_iff, keeps_ofUInt32.eq_iff, (keeps_ofList Event.keeps_toJson).eq_iff,
        (keeps_ofList Link.keeps_toJson).eq_iff, Status.keeps_toJson.eq_iff, spanKindNumber_injective.eq_iff,
        Span.written]
      tauto }

theorem InstrumentationScope.keeps_toJson : Keeps (InstrumentationScope.toJson (δ := δ)) id :=
  keeps_record (by decide : [sv "name", sv "version", sv "attributes", sv "droppedAttributesCount"].Nodup) {
    map_key _ := rfl
    ne_none a := by
      simp [Assignment.set, keeps_ofString.ne_none, keeps_ofKeyValues.ne_none, keeps_ofUInt32.ne_none]
    eq_iff a b := by
      simp [Assignment.set_inj, keeps_ofString.eq_iff, keeps_ofKeyValues.eq_iff, keeps_ofUInt32.eq_iff,
        InstrumentationScope.ext_iff] }

theorem ScopeSpans.keeps_toJson : Keeps (ScopeSpans.toJson (δ := δ)) ScopeSpans.written :=
  keeps_record (by decide : [sv "scope", sv "spans", sv "schemaUrl"].Nodup) {
    map_key _ := rfl
    ne_none a := by
      simp [Assignment.set, InstrumentationScope.keeps_toJson.ne_none, (keeps_ofList Span.keeps_toJson).ne_none,
        keeps_ofString.ne_none]
    eq_iff a b := by
      simp [Assignment.set_inj, InstrumentationScope.keeps_toJson.eq_iff, (keeps_ofList Span.keeps_toJson).eq_iff,
        keeps_ofString.eq_iff, ScopeSpans.written] }

theorem ResourceSpans.keeps_toJson : Keeps (ResourceSpans.toJson (δ := δ)) ResourceSpans.written :=
  keeps_record (by decide : [sv "resource", sv "scopeSpans", sv "schemaUrl"].Nodup) {
    map_key _ := rfl
    ne_none a := by
      simp [Assignment.set, Resource.keeps_toJson.ne_none, (keeps_ofList ScopeSpans.keeps_toJson).ne_none,
        keeps_ofString.ne_none]
    eq_iff a b := by
      simp [Assignment.set_inj, Resource.keeps_toJson.eq_iff, (keeps_ofList ScopeSpans.keeps_toJson).eq_iff,
        keeps_ofString.eq_iff, ResourceSpans.written] }

theorem ExportTraceServiceRequest.keeps_toJson :
    Keeps (ExportTraceServiceRequest.toJson (δ := δ)) ExportTraceServiceRequest.written :=
  keeps_record (by decide : [sv "resourceSpans"].Nodup) {
    map_key _ := rfl
    ne_none a := by
      simp [Assignment.set, (keeps_ofList ResourceSpans.keeps_toJson).ne_none]
    eq_iff a b := by
      simp [Assignment.set_inj, (keeps_ofList ResourceSpans.keeps_toJson).eq_iff, ExportTraceServiceRequest.written] }

/-- Every request has a JSON, and it says everything in the request but the versions of the spans. -/
theorem toJson_eq_iff_spans (a b : ExportTraceServiceRequest δ) :
    a.toJson.isSome ∧ (a.toJson = b.toJson ↔ a.written = b.written) :=
  ⟨ExportTraceServiceRequest.keeps_toJson.isSome a, ExportTraceServiceRequest.keeps_toJson.eq_iff a b⟩

end Cppnet.Otel
