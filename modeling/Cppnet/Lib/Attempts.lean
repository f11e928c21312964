import Cppnet.Lib.Machine
import Cppnet.Lib.Writer
import Mathlib.Algebra.GroupWithZero.Nat

/-!
# Attempts

An *attempt* at an item reports how much it did, with an error, if any. A program that is to do a list of items often
makes one attempt after the other, goes no further than the first error, and reports that, with the sum of the counts
(`Attempted`). The rules for proofs follow the list: `Attempted.nil`, `Attempted.cons`, and `Attempted.stop` and
`Attempted.stuck` for an attempt that is the last one.

* `Attempted.counts`: if the attempts count what they append to an output, so does the whole.
-/

namespace Lib

variable {σ α β ε : Type*}

/-- What comes of attempts at the items `as`, one after the other, up to the first that reports an error, with the
    counts added to `total`. They do not come back if one of them does not. -/
def Attempted (step : σ → α → Option (Report ε × σ)) (total : ℕ) (as : List α) (s : σ) :
    Option (Report ε × σ) → Prop
  | some (r, s') => ∃ done rs, done <+: as ∧ exec step s done = some (rs, s') ∧
      r.count = total + (rs.map Report.count).sum ∧
      (done = as ∧ (∀ x ∈ rs, x.err = none) ∧ r.err = none ∨
        ∃ front last, rs = front ++ [last] ∧ (∀ x ∈ front, x.err = none) ∧ last.err ≠ none ∧ r.err = last.err)
  | none => ∃ done rs s' a, done ++ [a] <+: as ∧ exec step s done = some (rs, s') ∧ (∀ x ∈ rs, x.err = none) ∧
      step s' a = none

namespace Attempted

variable {step : σ → α → Option (Report ε × σ)} {total : ℕ} {a : α} {as : List α} {s s' : σ} {x : Report ε}
  {o : Option (Report ε × σ)}

/-- No attempt. -/
theorem nil : Attempted step total [] s (some (⟨total, none⟩, s)) :=
  ⟨[], [], List.prefix_rfl, rfl, rfl, .inl ⟨rfl, List.forall_mem_nil _, rfl⟩⟩

/-- One more attempt before the others. -/
theorem cons (h : Attempted step (total + x.count) as s' o) (hstep : step s a = some (x, s')) (hx : x.err = none) :
    Attempted step total (a :: as) s o := by
  cases o with
  | none =>
    obtain ⟨done, rs, s'', a', hdone, hexec, hnone, hstep'⟩ := h
    exact ⟨a :: done, x :: rs, s'', a', List.cons_prefix_cons.2 ⟨rfl, hdone⟩,
      exec_cons_eq_some.2 ⟨x, s', rs, hstep, hexec, rfl⟩, List.forall_mem_cons.2 ⟨hx, hnone⟩, hstep'⟩
  | some o =>
    obtain ⟨done, rs, hdone, hexec, hcount, hend⟩ := h
    refine ⟨a :: done, x :: rs, List.cons_prefix_cons.2 ⟨rfl, hdone⟩,
      exec_cons_eq_some.2 ⟨x, s', rs, hstep, hexec, rfl⟩, ?_, ?_⟩
    · rw [hcount, List.map_cons, List.sum_cons, Nat.add_assoc]
    · rcases hend with ⟨rfl, hnone, herr⟩ | ⟨front, last, rfl, hnone, hlast, herr⟩
      · exact .inl ⟨rfl, List.forall_mem_cons.2 ⟨hx, hnone⟩, herr⟩
      · exact .inr ⟨x :: front, last, rfl, List.forall_mem_cons.2 ⟨hx, hnone⟩, hlast, herr⟩

/-- An attempt with an error is the last one. -/
theorem stop (hstep : step s a = some (x, s')) (hx : x.err ≠ none) :
    Attempted step total (a :: as) s (some (⟨total + x.count, x.err⟩, s')) := by
  refine ⟨[a], [x], List.cons_prefix_cons.2 ⟨rfl, List.nil_prefix⟩, exec_cons_eq_some.2 ⟨x, s', [], hstep, rfl, rfl⟩,
    ?_, .inr ⟨[], x, rfl, List.forall_mem_nil _, hx, rfl⟩⟩
  rw [List.map_singleton, List.sum_singleton]

/-- A count to start from. -/
theorem add (h : Attempted step 0 as s o) (total : ℕ) :
    Attempted step total as s (o.map fun (r, s') => (⟨total + r.count, r.err⟩, s')) := by
  cases o with
  | none => exact h
  | some o =>
    obtain ⟨done, rs, hdone, hexec, hcount, hend⟩ := h
    refine ⟨done, rs, hdone, hexec, ?_, hend⟩
    dsimp only
    rw [hcount, Nat.zero_add]

end Attempted

section Counts

variable {step : σ → α → Option (Report ε × σ)} {output : σ → List β} {total : ℕ} {as : List α} {s s' : σ}

/-- What is appended to an output by attempts that count it, all of them made. -/
theorem exec_counts {rs : List (Report ε)}
    (hstep : ∀ a ∈ as, ∀ s x s', step s a = some (x, s') → ∃ d, d.length = x.count ∧ output s' = output s ++ d)
    (h : exec step s as = some (rs, s')) :
    ∃ d, d.length = (rs.map Report.count).sum ∧ output s' = output s ++ d := by
  induction as generalizing s rs with
  | nil =>
    cases h
    exact ⟨[], rfl, (List.append_nil _).symm⟩
  | cons a as ih =>
    rw [List.forall_mem_cons] at hstep
    obtain ⟨x, s₁, rs', hfirst, hrest, rfl⟩ := exec_cons_eq_some.1 h
    obtain ⟨d, hlen, houtput⟩ := hstep.1 s x s₁ hfirst
    obtain ⟨d', hlen', houtput'⟩ := ih hstep.2 hrest
    refine ⟨d ++ d', ?_, by rw [houtput', houtput, List.append_assoc]⟩
    rw [List.length_append, hlen, hlen', List.map_cons, List.sum_cons]

/-- What is appended to an output by attempts that count it, up to the first error. -/
theorem Attempted.counts {r : Report ε}
    (hstep : ∀ a ∈ as, ∀ s x s', step s a = some (x, s') → ∃ d, d.length = x.count ∧ output s' = output s ++ d)
    (h : Attempted step total as s (some (r, s'))) :
    ∃ d, total + d.length = r.count ∧ output s' = output s ++ d := by
  obtain ⟨done, rs, hdone, hexec, hcount, -⟩ := h
  obtain ⟨d, hlen, houtput⟩ := exec_counts (fun a ha => hstep a (hdone.subset ha)) hexec
  exact ⟨d, by rw [hcount, hlen], houtput⟩

end Counts

end Lib
