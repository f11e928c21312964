import Cppnet.Io.Basic

/-!
# Metrics

`instrument/prometheus`: counters, gauges and histograms, which are known by a name and labels.

Their values are of any type with the operations that are used of `double`. The updates are made of atomic accesses
(`Access`) with a load and a store of the value before them; `observe` is given as a whole too, for one call after
the other. The counts are taken not to overflow.
-/

namespace Cppnet.Prometheus

/-- `metric_label`. -/
structure MetricLabel where
  key : Bytes
  val : Bytes
  deriving DecidableEq

/-- `metric_labels`. -/
abbrev MetricLabels := List MetricLabel

/-- `base_metric`. The time of the last update is in seconds. -/
structure BaseMetric where
  name : Bytes
  help : Bytes := []
  labels : MetricLabels := []
  lastUpdate : ℕ := 0
  deriving DecidableEq

/-- `counter`. -/
structure Counter (α : Type*) extends BaseMetric where
  value : α
  deriving DecidableEq

/-- `gauge`. -/
structure Gauge (α : Type*) extends BaseMetric where
  value : α
  deriving DecidableEq

/-- `histogram`. -/
structure Histogram (α : Type*) extends BaseMetric where
  buckets : List α
  bucketValues : List ℕ
  count : ℕ
  sum : α
  deriving DecidableEq

/-- `metric`. -/
inductive Metric (α : Type*)
  | counter (c : Counter α)
  | gauge (g : Gauge α)
  | histogram (h : Histogram α)
  deriving DecidableEq

/-! ## Histograms -/

namespace Histogram

variable {α : Type*}

/-- The constructor: a bucket for infinity is added, if it is not the last one. There has to be a bucket. -/
def new [Zero α] [Top α] [DecidableEq α] (base : BaseMetric) (buckets : List α) : Option (Histogram α) :=
  let bucketValues := List.replicate buckets.length 0
  buckets.getLast?.map fun back =>
    if back ≠ ⊤ then ⟨base, buckets ++ [⊤], bucketValues ++ [0], 0, 0⟩ else ⟨base, buckets, bucketValues, 0, 0⟩

variable [LT α] [DecidableLT α]

/-- The first loop of `observe`: where the first bucket is whose bound is not below the value. -/
def firstBucket (v : α) : List α → ℕ
  | [] => 0
  | bound :: buckets => if v > bound then firstBucket v buckets + 1 else 0

/-- The second loop of `observe`, from the bucket `i` on: the buckets that are added to. -/
def fittingBuckets (v : α) : ℕ → List α → List ℕ
  | _, [] => []
  | i, bound :: buckets => if v < bound then i :: fittingBuckets v (i + 1) buckets else []

/-- The buckets that `observe` adds to. -/
def observedBuckets (buckets : List α) (v : α) : List ℕ :=
  fittingBuckets v (firstBucket v buckets) (buckets.drop (firstBucket v buckets))

/-- `observe`. -/
def observe [Add α] (h : Histogram α) (v : α) : Histogram α :=
  { h with
    sum := h.sum + v
    count := h.count + 1
    bucketValues := (observedBuckets h.buckets v).foldl (fun values i => values.modify i (· + 1)) h.bucketValues }

end Histogram

/-! ## Updates -/

namespace Metric

variable {α : Type*}

/-- What the metrics have in common. -/
def base : Metric α → BaseMetric
  | counter c => c.toBaseMetric
  | gauge g => g.toBaseMetric
  | histogram h => h.toBaseMetric

/-- The value of a counter or a gauge, or the sum of a histogram. -/
def value : Metric α → α
  | counter c => c.value
  | gauge g => g.value
  | histogram h => h.sum

/-- A store to it. -/
def store (m : Metric α) (v : α) : Metric α :=
  match m with
  | counter c => counter { c with value := v }
  | gauge g => gauge { g with value := v }
  | histogram h => histogram { h with sum := v }

@[simp] theorem value_store (m : Metric α) (v : α) : (m.store v).value = v := by cases m <;> rfl

end Metric

/-- The atomic accesses of an update besides those to the value: a store to `last_update`, and additions of one to
    `count` and to a bucket. -/
inductive Access
  | update (seconds : ℕ)
  | count
  | bucket (i : ℕ)
  deriving DecidableEq

/-- What an access does. -/
def Access.apply {α : Type*} : Access → Metric α → Metric α
  | update seconds, .counter c => .counter { c with lastUpdate := seconds }
  | update seconds, .gauge g => .gauge { g with lastUpdate := seconds }
  | update seconds, .histogram h => .histogram { h with lastUpdate := seconds }
  | count, .histogram h => .histogram { h with count := h.count + 1 }
  | bucket i, .histogram h => .histogram { h with bucketValues := h.bucketValues.modify i (· + 1) }
  | _, m => m

@[simp] theorem Access.value_apply {α : Type*} (a : Access) (m : Metric α) : (a.apply m).value = m.value := by
  cases a <;> cases m <;> rfl

/-- A call that updates a metric. -/
inductive Call (α : Type*)
  | increment (v : α) (updatedAt : ℕ)
  | decrement (v : α) (updatedAt : ℕ)
  | observe (v : α)
  deriving DecidableEq

namespace Call

variable {α : Type*}

/-- The calls that the metrics have. -/
def suits : Call α → Metric α → Bool
  | increment _ _, .counter _ => true
  | increment _ _, .gauge _ => true
  | decrement _ _, .gauge _ => true
  | observe _, .histogram _ => true
  | _, _ => false

/-- What the call stores, after it has loaded `current`. -/
def newValue [Add α] [Sub α] (current : α) : Call α → α
  | increment v _ => current + v
  | decrement v _ => current - v
  | observe v => current + v

/-- What it does after that. -/
def accesses [LT α] [DecidableLT α] (m : Metric α) : Call α → List Access
  | increment _ updatedAt => [.update updatedAt]
  | decrement _ updatedAt => [.update updatedAt]
  | observe v =>
    match m with
    | .histogram h => .count :: (Histogram.observedBuckets h.buckets v).map .bucket
    | _ => []

end Call

end Cppnet.Prometheus
