import Cppnet.Instrument.Traces

/-!
# Metrics

`instrument/opentelemetry/protocol.cpp`: the JSON of a request to export metrics.

* `toJson_eq_iff_metrics`: every request has a JSON, and two requests have the same one exactly when they are the
  same but for the scales of the points of their exponential histograms, which are not written.
-/

namespace Cppnet.Otel

open Lib TraceContext

variable {δ : Type}

/-- The `value` of a point or of an exemplar. -/
inductive PointValue (δ : Type)
  | double (v : δ)
  | int (v : Int64)

/-- `exemplar`. -/
@[ext] structure Exemplar (δ : Type) where
  filteredAttributes : List (KeyValue δ)
  time : Int64
  value : PointValue δ
  spanId : SpanId
  traceId : TraceId

/-- `number_data_point`. -/
@[ext] structure NumberDataPoint (δ : Type) where
  attributes : List (KeyValue δ)
  startTime : Int64
  time : Int64
  value : PointValue δ
  exemplars : List (Exemplar δ)
  flags : Byte

/-- `gauge`. -/
@[ext] structure Gauge (δ : Type) where
  dataPoints : List (NumberDataPoint δ)

/-- `aggregation_temporality`. -/
inductive AggregationTemporality
  | delta
  | cumulative
  deriving DecidableEq

/-- `sum`. -/
@[ext] structure Sum (δ : Type) where
  dataPoints : List (NumberDataPoint δ)
  aggregationTemporality : AggregationTemporality
  isMonotonic : Bool

/-- `histogram::data_point`. -/
@[ext] structure Histogram.DataPoint (δ : Type) where
  attributes : List (KeyValue δ)
  startTime : Int64
  time : Int64
  count : UInt64
  sum : Option δ
  bucketCounts : List UInt64
  explicitBounds : List δ
  exemplars : List (Exemplar δ)
  flags : Byte
  min : Option δ
  max : Option δ

/-- `histogram`. -/
@[ext] structure Histogram (δ : Type) where
  dataPoints : List (Histogram.DataPoint δ)
  aggregationTemporality : AggregationTemporality

/-- `exponential_histogram::data_point::buckets`. -/
@[ext] structure ExponentialHistogram.DataPoint.Buckets where
  offset : Int32
  bucketCounts : List UInt64

/-- `exponential_histogram::data_point`. -/
structure ExponentialHistogram.DataPoint (δ : Type) where
  attributes : List (KeyValue δ)
  startTime : Int64
  time : Int64
  count : UInt64
  sum : Option δ
  scale : Int32
  zeroCount : UInt64
  positive : ExponentialHistogram.DataPoint.Buckets
  negative : ExponentialHistogram.DataPoint.Buckets
  flags : Byte
  exemplars : List (Exemplar δ)
  min : Option δ
  max : Option δ
  zeroThreshold : δ

/-- `exponential_histogram`. -/
@[ext] structure ExponentialHistogram (δ : Type) where
  dataPoints : List (ExponentialHistogram.DataPoint δ)
  aggregationTemporality : AggregationTemporality

/-- `summary::data_point::value_at_quantile`. -/
@[ext] structure Summary.DataPoint.ValueAtQuantile (δ : Type) where
  quantile : δ
  value : δ

/-- `summary::data_point`. -/
@[ext] structure Summary.DataPoint (δ : Type) where
  attributes : List (KeyValue δ)
  startTime : Int64
  time : Int64
  count : UInt64
  sum : δ
  quantileValues : List (Summary.DataPoint.ValueAtQuantile δ)
  flags : Byte

/-- `summary`. -/
@[ext] structure Summary (δ : Type) where
  dataPoints : List (Summary.DataPoint δ)

/-- `metric::data_t`. -/
inductive Metric.Data (δ : Type)
  | gauge (v : Gauge δ)
  | sum (v : Sum δ)
  | histogram (v : Histogram δ)
  | exponentialHistogram (v : ExponentialHistogram δ)
  | summary (v : Summary δ)

/-- `metric`. -/
@[ext] structure Metric (δ : Type) where
  name : Bytes
  description : Bytes
  unit : Bytes
  data : Metric.Data δ
  metadata : List (KeyValue δ)

/-- `scope_metrics`. -/
@[ext] structure ScopeMetrics (δ : Type) where
  scope : InstrumentationScope δ
  metrics : List (Metric δ)
  schemaUrl : Bytes

/-- `resource_metrics`. -/
@[ext] structure ResourceMetrics (δ : Type) where
  resource : Resource δ
  scopeMetrics : List (ScopeMetrics δ)
  schemaUrl : Bytes

/-- `export_metrics_service_request`. -/
@[ext] structure ExportMetricsServiceRequest (δ : Type) where
  resourceMetrics : List (ResourceMetrics δ)

/-! ## `to_json` -/

/-- The number of an `aggregation_temporality`. -/
def AggregationTemporality.number : AggregationTemporality → Byte
  | .delta => 1
  | .cumulative => 2

/-- The member for the value of a point. -/
def PointValue.member : PointValue δ → Bytes × Option (Json (Number δ))
  | .double v => (sv "asDouble", ofDouble v)
  | .int v => (sv "asInt", ofInt64 v)

/-- The keys of the kinds of values. -/
def PointValue.keys : List Bytes := [sv "asDouble", sv "asInt"]

def Exemplar.toJson (value : Exemplar δ) : Option (Json (Number δ)) :=
  record ([
    .set (sv "filteredAttributes") (ofKeyValues value.filteredAttributes),
    .set (sv "timeUnixNano") (ofInt64 value.time)] ++ Assignment.oneOf PointValue.keys value.value.member ++ [
    .set (sv "spanId") (ofHex value.spanId),
    .set (sv "traceId") (ofHex value.traceId)])

def NumberDataPoint.toJson (value : NumberDataPoint δ) : Option (Json (Number δ)) :=
  record ([
    .set (sv "attributes") (ofKeyValues value.attributes),
    .set (sv "startTimeUnixNano") (ofInt64 value.startTime),
    .set (sv "timeUnixNano") (ofInt64 value.time)] ++ Assignment.oneOf PointValue.keys value.value.member ++ [
    .set (sv "exemplars") (ofList Exemplar.toJson value.exemplars),
    .set (sv "flags") (ofUInt8 value.flags)])

def Gauge.toJson (value : Gauge δ) : Option (Json (Number δ)) :=
  record [.set (sv "dataPoints") (ofList NumberDataPoint.toJson value.dataPoints)]

def Sum.toJson (value : Sum δ) : Option (Json (Number δ)) :=
  record [
    .set (sv "dataPoints") (ofList NumberDataPoint.toJson value.dataPoints),
    .set (sv "aggregationTemporality") (ofUInt8 value.aggregationTemporality.number),
    .set (sv "isMonotonic") (ofBool value.isMonotonic)]

def Histogram.DataPoint.toJson (value : Histogram.DataPoint δ) : Option (Json (Number δ)) :=
  record [
    .set (sv "attributes") (ofKeyValues value.attributes),
    .set (sv "startTimeUnixNano") (ofInt64 value.startTime),
    .set (sv "timeUnixNano") (ofInt64 value.time),
    .set (sv "count") (ofUInt64 value.count),
    .has value.sum (sv "sum") ofDouble,
    .set (sv "bucketCounts") (ofList ofUInt64 value.bucketCounts),
    .set (sv "explicitBounds") (ofList ofDouble value.explicitBounds),
    .set (sv "exemplars") (ofList Exemplar.toJson value.exemplars),
    .set (sv "flags") (ofUInt8 value.flags),
    .has value.min (sv "min") ofDouble,
    .has value.max (sv "max") ofDouble]

def Histogram.toJson (value : Histogram δ) : Option (Json (Number δ)) :=
  record [
    .set (sv "dataPoints") (ofList Histogram.DataPoint.toJson value.dataPoints),
    .set (sv "aggregationTemporality") (ofUInt8 value.aggregationTemporality.number)]

def ExponentialHistogram.DataPoint.Buckets.toJson (value : ExponentialHistogram.DataPoint.Buckets) :
    Option (Json (Number δ)) :=
  record [
    .set (sv "offset") (ofInt64 value.offset.toInt64),
    .set (sv "bucketCounts") (ofList ofUInt64 value.bucketCounts)]

def ExponentialHistogram.DataPoint.toJson (value : ExponentialHistogram.DataPoint δ) : Option (Json (Number δ)) :=
  record [
    .set (sv "attributes") (ofKeyValues value.attributes),
    .set (sv "startTimeUnixNano") (ofInt64 value.startTime),
    .set (sv "timeUnixNano") (ofInt64 value.time),
    .set (sv "count") (ofUInt64 value.count),
    .has value.sum (sv "sum") ofDouble,
    .set (sv "zeroCount") (ofUInt64 value.zeroCount),
    .set (sv "positive") value.positive.toJson,
    .set (sv "negative") value.negative.toJson,
    .set (sv "flags") (ofUInt8 value.flags),
    .set (sv "exemplars") (ofList Exemplar.toJson value.exemplars),
    .has value.min (sv "min") ofDouble,
    .has value.max (sv "max") ofDouble,
    .set (sv "zeroThreshold") (ofDouble value.zeroThreshold)]

def ExponentialHistogram.toJson (value : ExponentialHistogram δ) : Option (Json (Number δ)) :=
  record [
    .set (sv "dataPoints") (ofList ExponentialHistogram.DataPoint.toJson value.dataPoints),
    .set (sv "aggregationTemporality") (ofUInt8 value.aggregationTemporality.number)]

def Summary.DataPoint.ValueAtQuantile.toJson (value : Summary.DataPoint.ValueAtQuantile δ) :
    Option (Json (Number δ)) :=
  record [
    .set (sv "quantile") (ofDouble value.quantile),
    .set (sv "value") (ofDouble value.value)]

def Summary.DataPoint.toJson (value : Summary.DataPoint δ) : Option (Json (Number δ)) :=
  record [
    .set (sv "attributes") (ofKeyValues value.attributes),
    .set (sv "startTimeUnixNano") (ofInt64 value.startTime),
    .set (sv "timeUnixNano") (ofInt64 value.time),
    .set (sv "count") (ofUInt64 value.count),
    .set (sv "sum") (ofDouble value.sum),
    .set (sv "quantileValues") (ofList Summary.DataPoint.ValueAtQuantile.toJson value.quantileValues),
    .set (sv "flags") (ofUInt8 value.flags)]

def Summary.toJson (value : Summary δ) : Option (Json (Number δ)) :=
  record [.set (sv "dataPoints") (ofList Summary.DataPoint.toJson value.dataPoints)]

/-- The member for the data of a metric. -/
def Metric.Data.member : Metric.Data δ → Bytes × Option (Json (Number δ))
  | .gauge v => (sv "gauge", v.toJson)
  | .sum v => (sv "sum", v.toJson)
  | .histogram v => (sv "histogram", v.toJson)
  | .exponentialHistogram v => (sv "exponentialHistogram", v.toJson)
  | .summary v => (sv "summary", v.toJson)

/-- The keys of the kinds of metrics. -/
def Metric.Data.keys : List Bytes :=
  [sv "gauge", sv "sum", sv "histogram", sv "exponentialHistogram", sv "summary"]

def Metric.toJson (value : Metric δ) : Option (Json (Number δ)) :=
  record ([
    .set (sv "name") (ofString value.name),
    .set (sv "description") (ofString value.description),
    .set (sv "unit") (ofString value.unit)] ++ Assignment.oneOf Metric.Data.keys value.data.member ++ [
    .set (sv "metadata") (ofKeyValues value.metadata)])

def ScopeMetrics.toJson (value : ScopeMetrics δ) : Option (Json (Number δ)) :=
  record [
    .set (sv "scope") value.scope.toJson,
    .set (sv "metrics") (ofList Metric.toJson value.metrics),
    .set (sv "schemaUrl") (ofString value.schemaUrl)]

def ResourceMetrics.toJson (value : ResourceMetrics δ) : Option (Json (Number δ)) :=
  record [
    .set (sv "resource") value.resource.toJson,
    .set (sv "scopeMetrics") (ofList ScopeMetrics.toJson value.scopeMetrics),
    .set (sv "schemaUrl") (ofString value.schemaUrl)]

def ExportMetricsServiceRequest.toJson (value : ExportMetricsServiceRequest δ) : Option (Json (Number δ)) :=
  record [.set (sv "resourceMetrics") (ofList ResourceMetrics.toJson value.resourceMetrics)]

/-! ## What is kept -/

/-- A point without its scale. -/
def ExponentialHistogram.DataPoint.written (value : ExponentialHistogram.DataPoint δ) :
    ExponentialHistogram.DataPoint δ := { value with scale := 0 }

/-- Points without their scales. -/
def ExponentialHistogram.written (value : ExponentialHistogram δ) : ExponentialHistogram δ :=
  { value with dataPoints := value.dataPoints.map DataPoint.written }

def Metric.Data.written : Metric.Data δ → Metric.Data δ
  | .exponentialHistogram v => .exponentialHistogram v.written
  | data => data

def Metric.written (value : Metric δ) : Metric δ := { value with data := value.data.written }

def ScopeMetrics.written (value : ScopeMetrics δ) : ScopeMetrics δ :=
  { value with metrics := value.metrics.map Metric.written }

def ResourceMetrics.written (value : ResourceMetrics δ) : ResourceMetrics δ :=
  { value with scopeMetrics := value.scopeMetrics.map ScopeMetrics.written }

def ExportMetricsServiceRequest.written (value : ExportMetricsServiceRequest δ) : ExportMetricsServiceRequest δ :=
  ⟨value.resourceMetrics.map ResourceMetrics.written⟩

theorem AggregationTemporality.number_injective : Function.Injective AggregationTemporality.number := by
  intro t t'
  cases t <;> cases t' <;> decide

theorem int32_toInt64_injective : Function.Injective Int32.toInt64 := fun i i' h =>
  Int32.toInt_inj.1 (by rw [← Int32.toInt_toInt64, h, Int32.toInt_toInt64])

theorem PointValue.keeps_member :
    KeepsFields keys (fun value : PointValue δ => Assignment.oneOf keys value.member) id := by
  refine .oneOf (fun value => ?_) (fun value => ?_) (fun value value' => ?_)
  · cases value <;> simp [member, keys]
  · cases value <;> simp [member, keeps_ofDouble.ne_none, keeps_ofInt64.ne_none]
  · -- The key tells the kind.
    have hne : sv "asDouble" ≠ sv "asInt" := by decide
    cases value <;> cases value' <;> simp [member, keeps_ofDouble.eq_iff, keeps_ofInt64.eq_iff, hne, hne.symm]

theorem Exemplar.keeps_toJson : Keeps (Exemplar.toJson (δ := δ)) id :=
  keeps_record
    (by decide : ([sv "filteredAttributes", sv "timeUnixNano"] ++ PointValue.keys ++
      [sv "spanId", sv "traceId"]).Nodup) {
    map_key _ := by simp [Assignment.set, PointValue.keeps_member.map_key]
    ne_none value := by
      refine List.forall_mem_append.2 ⟨List.forall_mem_append.2 ⟨?_, PointValue.keeps_member.ne_none value.value⟩, ?_⟩
      · simp [Assignment.set, keeps_ofKeyValues.ne_none, keeps_ofInt64.ne_none]
      · simp [Assignment.set, keeps_ofHex.ne_none]
    eq_iff a b := by
      simp [Assignment.set_inj, PointValue.keeps_member.append_eq_iff, keeps_ofKeyValues.eq_iff, keeps_ofInt64.eq_iff,
        keeps_ofHex.eq_iff, Exemplar.ext_iff] }

theorem NumberDataPoint.keeps_toJson : Keeps (NumberDataPoint.toJson (δ := δ)) id :=
  keeps_record
    (by decide : ([sv "attributes", sv "startTimeUnixNano", sv "timeUnixNano"] ++ PointValue.keys ++ [sv "exemplars",
      sv "flags"]).Nodup) {
    map_key _ := by simp [Assignment.set, PointValue.keeps_member.map_key]
    ne_none value := by
      refine List.forall_mem_append.2 ⟨List.forall_mem_append.2 ⟨?_, PointValue.keeps_member.ne_none value.value⟩, ?_⟩
      · simp [Assignment.set, keeps_ofKeyValues.ne_none, keeps_ofInt64.ne_none]
      · simp [Assignment.set, (keeps_ofList Exemplar.keeps_toJson).ne_none, keeps_ofUInt8.ne_none]
    eq_iff a b := by
      simp [Assignment.set_inj, PointValue.keeps_member.append_eq_iff, keeps_ofKeyValues.eq_iff, keeps_ofInt64.eq_iff,
        (keeps_ofList Exemplar.keeps_toJson).eq_iff, keeps_ofUInt8.eq_iff, NumberDataPoint.ext_iff] }

theorem Gauge.keeps_toJson : Keeps (Gauge.toJson (δ := δ)) id :=
  keeps_record (by decide : [sv "dataPoints"].Nodup) {
    map_key _ := rfl
    ne_none _ := by
      simp [Assignment.set, (keeps_ofList NumberDataPoint.keeps_toJson).ne_none]
    eq_iff a b := by
      simp [Assignment.set_inj, (keeps_ofList NumberDataPoint.keeps_toJson).eq_iff, Gauge.ext_iff] }

theorem Sum.keeps_toJson : Keeps (Sum.toJson (δ := δ)) id :=
  keeps_record (by decide : [sv "dataPoints", sv "aggregationTemporality", sv "isMonotonic"].Nodup) {
    map_key _ := rfl
    ne_none _ := by
      simp [Assignment.set, (keeps_ofList NumberDataPoint.keeps_toJson).ne_none, keeps_ofUInt8.ne_none,
        keeps_ofBool.ne_none]
    eq_iff a b := by
      simp [Assignment.set_inj, (keeps_ofList NumberDataPoint.keeps_toJson).eq_iff, keeps_ofUInt8.eq_iff,
        keeps_ofBool.eq_iff, AggregationTemporality.number_injective.eq_iff, Sum.ext_iff] }

theorem Histogram.DataPoint.keeps_toJson : Keeps (Histogram.DataPoint.toJson (δ := δ)) id :=
  keeps_record
    (by decide : [sv "attributes", sv "startTimeUnixNano", sv "timeUnixNano", sv "count", sv "sum", sv "bucketCounts",
      sv "explicitBounds", sv "exemplars", sv "flags", sv "min", sv "max"].Nodup) {
    map_key _ := rfl
    ne_none _ := by
      simp [Assignment.set, Assignment.has, keeps_ofKeyValues.ne_none, keeps_ofInt64.ne_none, keeps_ofUInt64.ne_none,
        (keeps_ofList keeps_ofUInt64).ne_none, (keeps_ofList keeps_ofDouble).ne_none,
        (keeps_ofList Exemplar.keeps_toJson).ne_none, keeps_ofUInt8.ne_none, keeps_ofDouble.ne_none]
    eq_iff a b := by
      simp [Assignment.set_inj, keeps_ofKeyValues.eq_iff, keeps_ofInt64.eq_iff, keeps_ofUInt64.eq_iff,
        (keeps_ofList keeps_ofUInt64).eq_iff, (keeps_ofList keeps_ofDouble).eq_iff,
        (keeps_ofList Exemplar.keeps_toJson).eq_iff, keeps_ofUInt8.eq_iff,
        Assignment.has_eq_iff keeps_ofDouble, Histogram.DataPoint.ext_iff] }

theorem Histogram.keeps_toJson : Keeps (Histogram.toJson (δ := δ)) id :=
  keeps_record (by decide : [sv "dataPoints", sv "aggregationTemporality"].Nodup) {
    map_key _ := rfl
    ne_none _ := by
      simp [Assignment.set, (keeps_ofList Histogram.DataPoint.keeps_toJson).ne_none, keeps_ofUInt8.ne_none]
    eq_iff a b := by
      simp [Assignment.set_inj, (keeps_ofList Histogram.DataPoint.keeps_toJson).eq_iff, keeps_ofUInt8.eq_iff,
        AggregationTemporality.number_injective.eq_iff, Histogram.ext_iff] }

theorem ExponentialHistogram.DataPoint.Buckets.keeps_toJson :
    Keeps (ExponentialHistogram.DataPoint.Buckets.toJson (δ := δ)) id :=
  keeps_record (by decide : [sv "offset", sv "bucketCounts"].Nodup) {
    map_key _ := rfl
    ne_none _ := by
      simp [Assignment.set, keeps_ofInt64.ne_none, (keeps_ofList keeps_ofUInt64).ne_none]
    eq_iff a b := by
      simp [Assignment.set_inj, keeps_ofInt64.eq_iff, (keeps_ofList keeps_ofUInt64).eq_iff,
        int32_toInt64_injective.eq_iff, ExponentialHistogram.DataPoint.Buckets.ext_iff] }

theorem ExponentialHistogram.DataPoint.keeps_toJson :
    Keeps (ExponentialHistogram.DataPoint.toJson (δ := δ)) ExponentialHistogram.DataPoint.written :=
  keeps_record
    (by decide : [sv "attributes", sv "startTimeUnixNano", sv "timeUnixNano", sv "count", sv "sum", sv "zeroCount",
      sv "positive", sv "negative", sv "flags", sv "exemplars", sv "min", sv "max", sv "zeroThreshold"].Nodup) {
    map_key _ := rfl
    ne_none _ := by
      simp [Assignment.set, Assignment.has, keeps_ofKeyValues.ne_none, keeps_ofInt64.ne_none, keeps_ofUInt64.ne_none,
        ExponentialHistogram.DataPoint.Buckets.keeps_toJson.ne_none, keeps_ofUInt8.ne_none,
        (keeps_ofList Exemplar.keeps_toJson).ne_none, keeps_ofDouble.ne_none]
    eq_iff a b := by
      simp [Assignment.set_inj, keeps_ofKeyValues.eq_iff, keeps_ofInt64.eq_iff, keeps_ofUInt64.eq_iff,
        ExponentialHistogram.DataPoint.Buckets.keeps_toJson.eq_iff, keeps_ofUInt8.eq_iff,
        (keeps_ofList Exemplar.keeps_toJson).eq_iff, keeps_ofDouble.eq_iff, Assignment.has_eq_iff keeps_ofDouble,
        ExponentialHistogram.DataPoint.written] }

theorem ExponentialHistogram.keeps_toJson : Keeps (ExponentialHistogram.toJson (δ := δ)) ExponentialHistogram.written :=
  keeps_record (by decide : [sv "dataPoints", sv "aggregationTemporality"].Nodup) {
    map_key _ := rfl
    ne_none _ := by
      simp [Assignment.set, (keeps_ofList ExponentialHistogram.DataPoint.keeps_toJson).ne_none, keeps_ofUInt8.ne_none]
    eq_iff a b := by
      simp [Assignment.set_inj, (keeps_ofList ExponentialHistogram.DataPoint.keeps_toJson).eq_iff,
        keeps_ofUInt8.eq_iff, AggregationTemporality.number_injective.eq_iff, ExponentialHistogram.written] }

theorem Summary.DataPoint.ValueAtQuantile.keeps_toJson : Keeps (Summary.DataPoint.ValueAtQuantile.toJson (δ := δ)) id :=
  keeps_record (by decide : [sv "quantile", sv "value"].Nodup) {
    map_key _ := rfl
    ne_none _ := by
      simp [Assignment.set, keeps_ofDouble.ne_none]
    eq_iff a b := by
      simp [Assignment.set_inj, keeps_ofDouble.eq_iff, Summary.DataPoint.ValueAtQuantile.ext_iff] }

theorem Summary.DataPoint.keeps_toJson : Keeps (Summary.DataPoint.toJson (δ := δ)) id :=
  keeps_record
    (by decide : [sv "attributes", sv "startTimeUnixNano", sv "timeUnixNano", sv "count", sv "sum",
      sv "quantileValues", sv "flags"].Nodup) {
    map_key _ := rfl
    ne_none _ := by
      simp [Assignment.set, keeps_ofKeyValues.ne_none, keeps_ofInt64.ne_none, keeps_ofUInt64.ne_none,
        keeps_ofDouble.ne_none, (keeps_ofList Summary.DataPoint.ValueAtQuantile.keeps_toJson).ne_none,
        keeps_ofUInt8.ne_none]
    eq_iff a b := by
      simp [Assignment.set_inj, keeps_ofKeyValues.eq_iff, keeps_ofInt64.eq_iff, keeps_ofUInt64.eq_iff,
        keeps_ofDouble.eq_iff, (keeps_ofList Summary.DataPoint.ValueAtQuantile.keeps_toJson).eq_iff,
        keeps_ofUInt8.eq_iff, Summary.DataPoint.ext_iff] }

theorem Summary.keeps_toJson : Keeps (Summary.toJson (δ := δ)) id :=
  keeps_record (by decide : [sv "dataPoints"].Nodup) {
    map_key _ := rfl
    ne_none _ := by
      simp [Assignment.set, (keeps_ofList Summary.DataPoint.keeps_toJson).ne_none]
    eq_iff a b := by
      simp [Assignment.set_inj, (keeps_ofList Summary.DataPoint.keeps_toJson).eq_iff, Summary.ext_iff] }

theorem Metric.Data.keeps_member :
    KeepsFields keys (fun data : Metric.Data δ => Assignment.oneOf keys data.member) Metric.Data.written := by
  refine .oneOf (fun data => ?_) (fun data => ?_) (fun data data' => ?_)
  · cases data <;> simp [member, keys]
  · cases data <;> simp [member, Gauge.keeps_toJson.ne_none, Sum.keeps_toJson.ne_none, Histogram.keeps_toJson.ne_none,
      ExponentialHistogram.keeps_toJson.ne_none, Summary.keeps_toJson.ne_none]
  · -- The key tells the kind.
    have hkeys : keys.Pairwise fun k k' => k ≠ k' ∧ k' ≠ k := by decide
    simp only [keys, List.pairwise_cons, List.forall_mem_cons] at hkeys
    cases data <;> cases data' <;> simp [member, written, hkeys, Gauge.keeps_toJson.eq_iff, Sum.keeps_toJson.eq_iff,
      Histogram.keeps_toJson.eq_iff, ExponentialHistogram.keeps_toJson.eq_iff, Summary.keeps_toJson.eq_iff]

theorem Metric.keeps_toJson : Keeps (Metric.toJson (δ := δ)) Metric.written :=
  keeps_record (by decide : ([sv "name", sv "description", sv "unit"] ++ Metric.Data.keys ++ [sv "metadata"]).Nodup) {
    map_key _ := by simp [Assignment.set, Metric.Data.keeps_member.map_key]
    ne_none value := by
      refine List.forall_mem_append.2 ⟨List.forall_mem_append.2 ⟨?_, Metric.Data.keeps_member.ne_none value.data⟩, ?_⟩
      · simp [Assignment.set, keeps_ofString.ne_none]
      · simp [Assignment.set, keeps_ofKeyValues.ne_none]
    eq_iff a b := by
      simp [Assignment.set_inj, Metric.Data.keeps_member.append_eq_iff, keeps_ofString.eq_iff,
        keeps_ofKeyValues.eq_iff, Metric.written] }

theorem ScopeMetrics.keeps_toJson : Keeps (ScopeMetrics.toJson (δ := δ)) ScopeMetrics.written :=
  keeps_record (by decide : [sv "scope", sv "metrics", sv "schemaUrl"].Nodup) {
    map_key _ := rfl
    ne_none _ := by
      simp [Assignment.set, InstrumentationScope.keeps_toJson.ne_none, (keeps_ofList Metric.keeps_toJson).ne_none,
        keeps_ofString.ne_none]
    eq_iff a b := by
      simp [Assignment.set_inj, InstrumentationScope.keeps_toJson.eq_iff, (keeps_ofList Metric.keeps_toJson).eq_iff,
        keeps_ofString.eq_iff, ScopeMetrics.written] }

theorem ResourceMetrics.keeps_toJson : Keeps (ResourceMetrics.toJson (δ := δ)) ResourceMetrics.written :=
  keeps_record (by decide : [sv "resource", sv "scopeMetrics", sv "schemaUrl"].Nodup) {
    map_key _ := rfl
    ne_none _ := by
      simp [Assignment.set, Resource.keeps_toJson.ne_none, (keeps_ofList ScopeMetrics.keeps_toJson).ne_none,
        keeps_ofString.ne_none]
    eq_iff a b := by
      simp [Assignment.set_inj, Resource.keeps_toJson.eq_iff, (keeps_ofList ScopeMetrics.keeps_toJson).eq_iff,
        keeps_ofString.eq_iff, ResourceMetrics.written] }

theorem ExportMetricsServiceRequest.keeps_toJson :
    Keeps (ExportMetricsServiceRequest.toJson (δ := δ)) ExportMetricsServiceRequest.written :=
  keeps_record (by decide : [sv "resourceMetrics"].Nodup) {
    map_key _ := rfl
    ne_none _ := by
      simp [Assignment.set, (keeps_ofList ResourceMetrics.keeps_toJson).ne_none]
    eq_iff a b := by
      simp [Assignment.set_inj, (keeps_ofList ResourceMetrics.keeps_toJson).eq_iff,
        ExportMetricsServiceRequest.written] }

/-- Every request has a JSON, and it says everything in the request but the scales of exponential histograms. -/
theorem toJson_eq_iff_metrics (a b : ExportMetricsServiceRequest δ) :
    a.toJson.isSome ∧ (a.toJson = b.toJson ↔ a.written = b.written) :=
  ⟨ExportMetricsServiceRequest.keeps_toJson.isSome a, ExportMetricsServiceRequest.keeps_toJson.eq_iff a b⟩

end Cppnet.Otel
