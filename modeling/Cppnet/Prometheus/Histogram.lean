import Cppnet.Bytes
import Cppnet.Prometheus.Metric
import Mathlib.Algebra.Order.Monoid.Unbundled.WithTop
import Mathlib.Data.List.Count
import Mathlib.Data.List.Nodup
import Mathlib.Data.List.Range
import Mathlib.Order.BoundedOrder.Basic

/-!
# The buckets of a histogram

`observe` passes over the buckets whose bounds are below the value, and adds to those that follow as long as their
bounds are above it. Where a bound is the value, it adds to no bucket at all: not to that one, nor to any later one.

* `buckets_cumulative_iff`: each bucket has the number of values up to its bound if and only if no value is a bound.
-/

namespace Cppnet.Prometheus.Histogram

variable {α : Type*} [LinearOrder α]

/-! ## What one value is added to -/

/-- The first loop stops at the first bound that is not below the value. -/
theorem firstBucket_spec (v : α) (buckets : List α) : ∃ pre post, buckets = pre ++ post ∧
    firstBucket v buckets = pre.length ∧ (∀ b ∈ pre, b < v) ∧ ∀ b ∈ post.head?, v ≤ b := by
  induction buckets with
  | nil => exact ⟨[], [], rfl, rfl, by simp, by simp⟩
  | cons bound buckets ih =>
    rw [firstBucket]
    split_ifs with hbound
    · obtain ⟨pre, post, rfl, hfirst, hpre, hpost⟩ := ih
      exact ⟨bound :: pre, post, rfl, by rw [hfirst, List.length_cons], List.forall_mem_cons.2 ⟨hbound, hpre⟩, hpost⟩
    · refine ⟨[], bound :: buckets, rfl, rfl, by simp, fun b hb => ?_⟩
      cases hb
      exact not_lt.1 hbound

/-- The second loop, if it starts below all the bounds. -/
theorem fittingBuckets_eq {v : α} {buckets : List α} (hv : ∀ b ∈ buckets, v < b) (i : ℕ) :
    fittingBuckets v i buckets = List.range' i buckets.length := by
  induction buckets generalizing i with
  | nil => rfl
  | cons bound buckets ih =>
    rw [List.forall_mem_cons] at hv
    rw [fittingBuckets, if_pos hv.1, ih hv.2, List.length_cons, List.range'_succ]

/-- A value is added to the buckets from the first bound above it on, or, if it is a bound itself, to none. -/
theorem observedBuckets_cases {buckets : List α} (hasc : buckets.Pairwise (· < ·)) (v : α) :
    v ∈ buckets ∧ observedBuckets buckets v = [] ∨
      ∃ pre post, buckets = pre ++ post ∧ (∀ b ∈ pre, b < v) ∧ (∀ b ∈ post, v < b) ∧
        observedBuckets buckets v = List.range' pre.length post.length := by
  obtain ⟨pre, post, rfl, hfirst, hpre, hpost⟩ := firstBucket_spec v buckets
  rw [observedBuckets, hfirst, List.drop_left]
  rcases post with _ | ⟨bound, post⟩
  · exact .inr ⟨pre, [], rfl, hpre, by simp, rfl⟩
  rcases (hpost bound rfl).eq_or_lt with rfl | hlt
  · exact .inl ⟨by simp, by rw [fittingBuckets, if_neg (lt_irrefl v)]⟩
  · have habove : ∀ b ∈ bound :: post, v < b := by
      have hrest := (List.pairwise_append.1 hasc).2.1
      exact List.forall_mem_cons.2 ⟨hlt, fun b hb => hlt.trans (List.rel_of_pairwise_cons hrest hb)⟩
    exact .inr ⟨pre, bound :: post, rfl, hpre, habove, fittingBuckets_eq habove _⟩

/-- How often a value is added to a bucket. -/
theorem count_observedBuckets {buckets : List α} (hasc : buckets.Pairwise (· < ·)) (v : α) {i : ℕ} {bound : α}
    (hi : buckets[i]? = some bound) :
    (observedBuckets buckets v).count i = if v ∉ buckets ∧ v ≤ bound then 1 else 0 := by
  rcases observedBuckets_cases hasc v with ⟨hv, hnil⟩ | ⟨pre, post, rfl, hpre, hpost, hrange⟩
  · rw [hnil, List.count_nil, if_neg fun h => h.1 hv]
  · have hv : v ∉ pre ++ post := by
      rw [List.mem_append]
      exact fun h => h.elim (fun h => lt_irrefl v (hpre v h)) fun h => lt_irrefl v (hpost v h)
    rw [hrange, (List.nodup_range' _).count]
    refine if_congr (List.mem_range'_1.trans ?_) rfl rfl
    -- The bucket is one of the first ones, or one of the last.
    by_cases hlt : i < pre.length
    · rw [List.getElem?_append_left hlt] at hi
      have hbelow := hpre bound (List.mem_of_getElem? hi)
      exact iff_of_false (fun h => absurd h.1 (Nat.not_le.2 hlt)) fun h => absurd h.2 (not_le.2 hbelow)
    · rw [List.getElem?_append_right (Nat.not_lt.1 hlt)] at hi
      have hlen := (List.getElem?_eq_some_iff.1 hi).1
      exact iff_of_true ⟨Nat.not_lt.1 hlt, by omega⟩ ⟨hv, (hpost bound (List.mem_of_getElem? hi)).le⟩

/-! ## Histories -/

/-- Additions of one to some elements of a list. -/
theorem getElem?_foldl_modify (is : List ℕ) (values : List ℕ) (i : ℕ) :
    (is.foldl (fun values i => values.modify i (· + 1)) values)[i]? = values[i]?.map (· + is.count i) := by
  induction is generalizing values with
  | nil => simp
  | cons j is ih =>
    rw [List.foldl_cons, ih, List.getElem?_modify, List.count_cons]
    cases values[i]? with
    | none => rfl
    | some n =>
      by_cases hji : j = i
      · simp [hji, Nat.add_comm, Nat.add_left_comm]
      · simp [hji]

/-- What a histogram with these bounds has, after it has observed some values. -/
structure Counts (buckets vs : List α) (h : Histogram α) : Prop where
  buckets_eq : h.buckets = buckets
  count : h.count = vs.length
  values : ∀ (i : ℕ) (bound : α), buckets[i]? = some bound →
    h.bucketValues[i]? = some (vs.countP fun v => v ∉ buckets ∧ v ≤ bound)
  length : h.bucketValues.length = buckets.length

/-- One more value. -/
theorem Counts.observe [Add α] {buckets vs : List α} {h : Histogram α} (hasc : buckets.Pairwise (· < ·))
    (hcounts : Counts buckets vs h) (v : α) : Counts buckets (vs ++ [v]) (h.observe v) where
  buckets_eq := hcounts.buckets_eq
  count := by
    rw [List.length_append, ← hcounts.count]
    rfl
  values i bound hi := by
    rw [Histogram.observe]
    dsimp only
    rw [getElem?_foldl_modify, hcounts.values i bound hi, hcounts.buckets_eq, count_observedBuckets hasc v hi,
      List.countP_append, List.countP_singleton]
    simp
  length := by
    have hmodify : ∀ is values : List ℕ,
        (is.foldl (fun values i => values.modify i (· + 1)) values).length = values.length := by
      intro is
      induction is with
      | nil => exact fun _ => rfl
      | cons i is ih => exact fun values => by rw [List.foldl_cons, ih, List.length_modify]
    rw [Histogram.observe]
    dsimp only
    rw [hmodify, hcounts.length]

/-- A history of values. -/
theorem Counts.observes [Add α] {buckets : List α} {h : Histogram α} (hasc : buckets.Pairwise (· < ·))
    (hcounts : Counts buckets [] h) (vs : List α) : Counts buckets vs (vs.foldl Histogram.observe h) := by
  induction vs using List.reverseRecOn with
  | nil => exact hcounts
  | append_singleton vs v ih =>
    rw [List.foldl_append]
    exact ih.observe hasc v

/-- A new histogram, with a bucket for infinity. -/
theorem exists_new [OrderTop α] [Zero α] (base : BaseMetric) {bounds : List α} (hne : bounds ≠ [])
    (hasc : bounds.Pairwise (· < ·)) : ∃ h, new base bounds = some h ∧ Counts h.buckets [] h ∧
      h.buckets.Pairwise (· < ·) ∧ h.buckets.getLast? = some ⊤ ∧ ∀ v, v ∈ h.buckets ↔ v ∈ bounds ∨ v = ⊤ := by
  obtain ⟨init, back, rfl⟩ := (List.eq_nil_or_concat' bounds).resolve_left hne
  have hnew : new base (init ++ [back]) = some (if back ≠ ⊤ then
      ⟨base, init ++ [back] ++ [⊤], List.replicate (init ++ [back]).length 0 ++ [0], 0, 0⟩
      else ⟨base, init ++ [back], List.replicate (init ++ [back]).length 0, 0, 0⟩) := by
    rw [new, List.getLast?_append_of_ne_nil _ (List.cons_ne_nil _ _)]
    rfl
  have hzero : ∀ (buckets : List α) (i : ℕ) (bound : α), buckets[i]? = some bound →
      (List.replicate buckets.length 0)[i]? = some 0 := by
    intro buckets i bound hi
    rw [List.getElem?_replicate, if_pos (List.getElem?_eq_some_iff.1 hi).1]
  rw [hnew]
  by_cases hback : back = ⊤
  · rw [if_neg (not_not.2 hback)]
    refine ⟨_, rfl, ⟨rfl, rfl, hzero _, List.length_replicate⟩, hasc, ?_, fun v => ?_⟩
    · rw [List.getLast?_append_of_ne_nil _ (List.cons_ne_nil _ _), hback]
      rfl
    · simp only [List.mem_append, List.mem_singleton, hback]
      tauto
  · rw [if_pos hback]
    have hlt : ∀ b ∈ init ++ [back], b < ⊤ := by
      have hback' := lt_top_iff_ne_top.2 hback
      intro b hb
      rcases List.mem_append.1 hb with hb | hb
      · exact ((List.pairwise_append.1 hasc).2.2 b hb back (List.mem_singleton_self _)).trans hback'
      · rwa [List.mem_singleton.1 hb]
    have hvalues : List.replicate (init ++ [back]).length 0 ++ [0] =
        List.replicate (init ++ [back] ++ [(⊤ : α)]).length 0 := by
      have hlen : (init ++ [back] ++ [(⊤ : α)]).length = (init ++ [back]).length + 1 := List.length_append
      rw [hlen, List.replicate_succ']
    rw [hvalues]
    refine ⟨_, rfl, ⟨rfl, rfl, hzero _, List.length_replicate⟩, ?_, ?_, fun v => ?_⟩
    · refine List.pairwise_append.2 ⟨hasc, List.pairwise_singleton _ _, fun b hb t ht => ?_⟩
      rw [List.mem_singleton.1 ht]
      exact hlt b hb
    · rw [List.getLast?_append_of_ne_nil _ (List.cons_ne_nil _ _)]
      rfl
    · rw [List.mem_append, List.mem_singleton]

/-- For strictly ascending bounds and any values, each bucket has the number of the values up to its bound, and so the
    last one the number of all values, if and only if no value is a bound. -/
theorem buckets_cumulative_iff [OrderTop α] [Add α] [Zero α] (base : BaseMetric) {bounds : List α}
    (hne : bounds ≠ []) (hasc : bounds.Pairwise (· < ·)) (vs : List α) :
    ∃ h, new base bounds = some h ∧
      ((∀ (i : ℕ) (bound : α), h.buckets[i]? = some bound →
          (vs.foldl Histogram.observe h).bucketValues[i]? = some (vs.countP (· ≤ bound))) ∧
        (vs.foldl Histogram.observe h).bucketValues.getLast? = some (vs.foldl Histogram.observe h).count ↔
      ∀ v ∈ vs, v ∉ bounds ∧ v ≠ ⊤) := by
  obtain ⟨h, hnew, hcounts, hasc', hlast, hmem⟩ := exists_new base hne hasc
  obtain ⟨-, hcount, hvalues, hlength⟩ := hcounts.observes hasc' vs
  refine ⟨h, hnew, ?_⟩
  have hinfinity := hvalues (h.buckets.length - 1) ⊤ (by rwa [← List.getLast?_eq_getElem?])
  rw [← hlength, ← List.getLast?_eq_getElem?] at hinfinity
  rw [hinfinity, hcount, Option.some.injEq]
  constructor
  · rintro ⟨-, hall⟩ v hv
    have hv' := (List.countP_eq_length.1 hall) v hv
    simp only [hmem, not_or, decide_eq_true_eq] at hv'
    exact hv'.1
  · intro hno
    have hcongr : ∀ bound, (vs.countP fun v => v ∉ h.buckets ∧ v ≤ bound) = vs.countP (· ≤ bound) := by
      intro bound
      refine List.countP_congr fun v hv => ?_
      simp only [decide_eq_true_eq, hmem, not_or]
      exact and_iff_right (hno v hv)
    refine ⟨fun i bound hi => by rw [hvalues i bound hi, hcongr], ?_⟩
    rw [hcongr]
    exact List.countP_eq_length.2 fun v _ => decide_eq_true le_top

theorem buckets_cumulative_iff_three : ∃ h, new ⟨sv "test", [], [], 0⟩ [(1 : WithTop ℕ), 3] = some h ∧
    (([0, 2, 5].foldl Histogram.observe h).bucketValues.getLast? =
      some ([0, 2, 5].foldl Histogram.observe h).count) := by
  obtain ⟨h, hnew, hiff⟩ := @buckets_cumulative_iff (WithTop ℕ) _ _ _ _ ⟨sv "test", [], [], 0⟩ [1, 3]
    (by decide) (by decide) [0, 2, 5]
  exact ⟨h, hnew, (hiff.2 (by decide)).2⟩

/-- The value of the first bound is in none of the buckets, though it is counted. -/
theorem buckets_not_cumulative : ∃ h, new ⟨sv "test", [], [], 0⟩ [(1 : WithTop ℕ), 3] = some h ∧
    h.buckets = [1, 3, ⊤] ∧ (h.observe 1).bucketValues = [0, 0, 0] ∧ (h.observe 1).count = 1 ∧
    ¬((∀ (i : ℕ) (bound : WithTop ℕ), h.buckets[i]? = some bound →
      (h.observe 1).bucketValues[i]? = some ([1].countP (· ≤ bound))) ∧
      (h.observe 1).bucketValues.getLast? = some (h.observe 1).count) := by
  refine ⟨_, rfl, rfl, rfl, rfl, fun h => ?_⟩
  cases h.2

end Cppnet.Prometheus.Histogram
