import Cppnet.Lib.Reader

/-!
# Writers

A writer takes the elements of a span: `write` reports how many elements of the
front of the span it has accepted, together with an error, if any. It may also
never come back (`none`).

* `Writer`: the interface, with what has been accepted so far.
* `Wrote s ds s'`: the writes of the spans `ds`, one after the other, were all
  accepted in full, and led from `s` to `s'`.
* `LawfulWriter`: what a write counts, it has accepted.
* `AcceptingWriter`: states from which every write is accepted in full. Then any
  sequence of writes is (`AcceptingWriter.wrote`), and its output is that of the
  writes in order (`Wrote.output_eq`).
* `TakingWriter`: states from which every write accepts an element of its span, if
  there is one, without an error.
-/

namespace Lib

/-- A writer with the states `σ`, of elements `α`, with errors `ε`. -/
class Writer (σ : Type*) (α ε : outParam (Type*)) where
  /-- A write of a span: the report, and the state after it. -/
  write : σ → List α → Option (Report ε × σ)
  /-- The elements accepted so far. -/
  output : σ → List α
  /-- A number of writes without an error by which the writer accepts elements. -/
  fuel : σ → ℕ

/-- The writes of a lawful writer accept the elements they count. -/
class LawfulWriter (σ : Type*) {α ε : outParam (Type*)} [Writer σ α ε] : Prop where
  accepts : ∀ {s s' : σ} {d : List α} {r : Report ε}, Writer.write s d = some (r, s') →
    r.count ≤ d.length ∧ Writer.output s' = Writer.output s ++ d.take r.count

/-- States of a writer from which every write is accepted in full. -/
class AcceptingWriter (σ : Type*) {α ε : outParam (Type*)} [Writer σ α ε] where
  Accepting : σ → Prop
  write_accepting : ∀ {s : σ} (d : List α), Accepting s →
    ∃ s', Writer.write s d = some (⟨d.length, none⟩, s') ∧ Accepting s'

/-- States of a writer from which every write accepts some of its span, without an error. -/
class TakingWriter (σ : Type*) {α ε : outParam (Type*)} [Writer σ α ε] where
  Taking : σ → Prop
  write_taking : ∀ {s : σ} (d : List α), Taking s →
    ∃ n s', Writer.write s d = some (⟨n, none⟩, s') ∧ Taking s' ∧ (d ≠ [] → 0 < n)

variable {σ α ε : Type*} [Writer σ α ε] {s s' s'' : σ} {d : List α} {ds ds' : List (List α)}

/-- The writes of `ds`, all accepted in full, lead from `s` to `s'`. -/
inductive Wrote : σ → List (List α) → σ → Prop
  | nil (s : σ) : Wrote s [] s
  | cons {s s' s'' : σ} {d : List α} {ds : List (List α)} :
      Writer.write s d = some (⟨d.length, none⟩, s') → Wrote s' ds s'' → Wrote s (d :: ds) s''

namespace Wrote

theorem single (h : Writer.write s d = some (⟨d.length, none⟩, s')) : Wrote s [d] s' :=
  .cons h (.nil _)

theorem trans (h : Wrote s ds s') (h' : Wrote s' ds' s'') : Wrote s (ds ++ ds') s'' := by
  induction h with
  | nil => exact h'
  | cons hw _ ih => exact .cons hw (ih h')

/-- Accepted writes are found in the output, in order. -/
theorem output_eq [LawfulWriter σ] (h : Wrote s ds s') :
    Writer.output s' = Writer.output s ++ ds.flatten := by
  induction h with
  | nil => simp
  | cons hw _ ih => rw [ih, (LawfulWriter.accepts hw).2, List.take_length, List.flatten_cons,
      List.append_assoc]

end Wrote

/-- From an accepting state, every sequence of writes is accepted. -/
theorem AcceptingWriter.wrote [AcceptingWriter σ] (hs : AcceptingWriter.Accepting s)
    (ds : List (List α)) : ∃ s', Wrote s ds s' ∧ AcceptingWriter.Accepting s' := by
  induction ds generalizing s with
  | nil => exact ⟨s, .nil s, hs⟩
  | cons d ds ih =>
    obtain ⟨s₁, hw, hs₁⟩ := AcceptingWriter.write_accepting d hs
    obtain ⟨s', hws, hs'⟩ := ih hs₁
    exact ⟨s', .cons hw hws, hs'⟩

end Lib
