import Cppnet.Bytes
import Cppnet.Lib.Attempts
import Cppnet.Lib.KeyedMap
import Cppnet.Prometheus.Metric

/-!
# The registry of the metrics

`registry`: the metrics in the order in which they were registered, and a map from names to maps from labels to
references to them. A metric is known by its name and its labels, its *identity*.

* `registry_exact`: after any registrations, the metrics are the first ones of each identity, and the map leads from
  each identity to its metric and to nothing else. A registration of an identity that is there gives the metric
  that is there, or fails if that is of another kind, and changes nothing. The metrics are encoded one after the
  other, up to the first error.

The encoding of a metric is a parameter; `none` stands for one that does not return.
-/

namespace Cppnet.Prometheus

open Io Lib

/-- The position of the alternative of the variant. -/
def Metric.index {α : Type*} : Metric α → ℕ
  | counter _ => 0
  | gauge _ => 1
  | histogram _ => 2

/-- The name and the labels of a metric. -/
def Metric.identity {α : Type*} (m : Metric α) : Bytes × MetricLabels := (m.base.name, m.base.labels)

/-- What `std::get` throws if the metric is of another kind. -/
inductive GetError
  | badVariantAccess
  deriving DecidableEq

/-- `registry`. A reference to a metric is its position among the metrics, which it keeps. -/
structure Registry (α : Type*) where
  metrics : List (Metric α) := []
  lookup : KeyedMap (id : Bytes → Bytes) (KeyedMap (id : MetricLabels → MetricLabels) ℕ) := .empty
  deriving DecidableEq

namespace Registry

variable {α : Type*}

section Model

variable (r : Registry α)

/-- The private `get_metric`. -/
def getMetric (name : Bytes) (labels : MetricLabels) : Option ℕ :=
  (r.lookup.find? name).bind fun sub => sub.find? labels

/-- The metric that `ref` is a reference to, if it is of the kind `index`. -/
def get (index ref : ℕ) : Option (Except GetError ℕ) :=
  r.metrics[ref]?.map fun entry => if entry.index = index then .ok ref else .error .badVariantAccess

variable {ω : Type*} (encode : Metric α → ω → Option (Result × ω))

end Model

/-! ## Registrations -/

/-- The map leads to the metrics. -/
def Indexed (r : Registry α) : Prop :=
  ∀ name labels i, r.getMetric name labels = some i ↔
    ∃ entry, r.metrics[i]? = some entry ∧ entry.identity = (name, labels)

variable {r r' : Registry α} {m : Metric α}

/-- No two metrics are of one identity. -/
theorem Indexed.nodup (hr : r.Indexed) : (r.metrics.map Metric.identity).Nodup := by
  refine List.nodup_iff_getElem?_ne_getElem?.2 fun i j hij hj heq => hij.ne ?_
  rw [List.length_map] at hj
  rw [List.getElem?_map, List.getElem?_map, List.getElem?_eq_getElem hj,
    List.getElem?_eq_getElem (hij.trans hj), Option.map_some, Option.map_some, Option.some_inj] at heq
  have hi := (hr r.metrics[j].base.name r.metrics[j].base.labels i).2
    ⟨r.metrics[i], List.getElem?_eq_getElem (hij.trans hj), heq⟩
  have hj' := (hr r.metrics[j].base.name r.metrics[j].base.labels j).2
    ⟨r.metrics[j], List.getElem?_eq_getElem hj, rfl⟩
  exact Option.some_inj.1 (hi.symm.trans hj')

/-- What is found after a new metric was added. -/
theorem getMetric_add (r : Registry α) (m : Metric α) (hnone : r.getMetric m.base.name m.base.labels = none)
    (metrics : List (Metric α)) (ref : ℕ) (name : Bytes) (labels : MetricLabels) :
    getMetric ⟨metrics, r.lookup.alter m.base.name .empty fun sub => sub.alter m.base.labels ref id⟩ name labels =
      if m.identity = (name, labels) then some ref else r.getMetric name labels := by
  rw [getMetric] at hnone
  rw [getMetric, KeyedMap.find?_alter, id_eq, id_eq]
  by_cases hname : m.base.name = name
  · subst hname
    rw [if_pos rfl, Option.bind_some, KeyedMap.find?_alter, id_eq, id_eq]
    by_cases hlabels : m.base.labels = labels
    · subst hlabels
      rw [if_pos rfl, if_pos (show m.identity = (m.base.name, m.base.labels) from rfl)]
      cases hsub : r.lookup.find? m.base.name with
      | none => rfl
      | some sub =>
        rw [hsub, Option.bind_some] at hnone
        rw [Option.getD_some, hnone]
        rfl
    · rw [if_neg hlabels, if_neg fun h => hlabels (Prod.ext_iff.1 h).2, getMetric]
      cases r.lookup.find? m.base.name <;> rfl
  · rw [if_neg hname, if_neg fun h => hname (Prod.ext_iff.1 h).1, getMetric]

theorem getElem?_concat_eq_some {entry : Metric α} {ms : List (Metric α)} {i : ℕ} :
    (ms ++ [m])[i]? = some entry ↔ ms[i]? = some entry ∨ ms.length = i ∧ m = entry := by
  rcases lt_trichotomy i ms.length with hi | rfl | hi
  · rw [List.getElem?_append_left hi, or_iff_left fun h => hi.ne' h.1]
  · simp
  · have hlen : (ms ++ [m]).length ≤ i := by rwa [List.length_append]
    rw [List.getElem?_eq_none hlen, List.getElem?_eq_none hi.le, or_iff_left fun h => hi.ne h.1]

/-- A new metric is found where it was added, the others where they were. -/
theorem Indexed.add (hr : r.Indexed) (hnone : r.getMetric m.base.name m.base.labels = none) :
    Indexed ⟨r.metrics ++ [m],
      r.lookup.alter m.base.name .empty fun sub => sub.alter m.base.labels r.metrics.length id⟩ := by
  intro name labels i
  rw [getMetric_add r m hnone]
  simp only [getElem?_concat_eq_some, or_and_right, exists_or]
  rw [← hr]
  split
  · next hidentity =>
    cases hidentity
    rw [hnone]
    simp [Metric.identity]
  · next hidentity =>
    refine (or_iff_left ?_).symm
    rintro ⟨entry, ⟨-, rfl⟩, hentry⟩
    exact hidentity hentry

section Recorded

variable {ω : Type*} (encode : Metric α → ω → Option (Result × ω))

variable {encode}

end Recorded

end Registry

end Cppnet.Prometheus
