import Mathlib.Tactic.Common

/-!
# Loops

A `while` loop of an imperative program, with its early returns, is a *body*
giving, at each state, one turn: going on from a next state (`Turn.next`), or
leaving the loop with a result (`Turn.done`). The body may have no turn at all
(`none`), when something it calls never comes back.

* `Loop.run` evaluates the loop for at most a given number of turns, and is
  what the executable models use;
* `Loop.Returns` is its meaning, without a bound on the turns, and `Loop.Reaches`
  that of some of its turns.

The two agree (`returns_of_run`, `Returns.run_of_measure`). The rules for
proofs are `Returns.invariant`, for what holds if the loop returns, and
`run_total`, for loops with a measure, which do return.
-/

namespace Lib

/-- One turn of a loop: going on from a state, or leaving with a result. -/
inductive Turn (σ ρ : Type*)
  | next (s : σ)
  | done (r : ρ)

namespace Loop

variable {σ ρ : Type*} (body : σ → Option (Turn σ ρ))

/-- The result of the loop from `s`, if it takes at most `n` turns. -/
def run : ℕ → σ → Option ρ
  | 0, _ => none
  | n + 1, s =>
    match body s with
    | none => none
    | some (.next s') => run n s'
    | some (.done r) => some r

/-- The loop from `s` returns `r`, after any number of turns. -/
inductive Returns : σ → ρ → Prop
  | done {s : σ} {r : ρ} : body s = some (.done r) → Returns s r
  | next {s s' : σ} {r : ρ} : body s = some (.next s') → Returns s' r → Returns s r

/-- The loop gets from `s` to `s'`, after any number of turns. -/
inductive Reaches : σ → σ → Prop
  | refl (s : σ) : Reaches s s
  | next {s s' s'' : σ} : body s = some (.next s') → Reaches s' s'' → Reaches s s''

variable {body}

/-- What is returned from a state that is reached. -/
theorem Reaches.returns {s s' : σ} {r : ρ} (h : Reaches body s s') (h' : Returns body s' r) :
    Returns body s r := by
  induction h with
  | refl => exact h'
  | next hb _ ih => exact .next hb (ih h')

theorem Reaches.trans {s s' s'' : σ} (h : Reaches body s s') (h' : Reaches body s' s'') :
    Reaches body s s'' := by
  induction h with
  | refl => exact h'
  | next hb _ ih => exact .next hb (ih h')

/-- What every turn preserves holds wherever the loop gets. -/
theorem Reaches.invariant (Inv : σ → Prop) (hnext : ∀ s s', Inv s → body s = some (.next s') → Inv s')
    {s s' : σ} (h : Reaches body s s') (hs : Inv s) : Inv s' := by
  induction h with
  | refl => exact hs
  | next hb _ ih => exact ih (hnext _ _ hs hb)

/-- A loop gets where another one gets that takes the same turns. -/
theorem Reaches.mono {body' : σ → Option (Turn σ ρ)}
    (hnext : ∀ s s', body s = some (.next s') → body' s = some (.next s')) {s s' : σ}
    (h : Reaches body s s') : Reaches body' s s' := by
  induction h with
  | refl => exact .refl _
  | next hb _ ih => exact .next (hnext _ _ hb) ih

/-- A loop returns one result at most. -/
theorem Returns.unique {s : σ} {r r' : ρ} (h : Returns body s r) (h' : Returns body s r') :
    r = r' := by
  induction h with
  | done hb =>
    cases h' with
    | done hb' =>
      cases hb.symm.trans hb'
      rfl
    | next hb' _ => cases hb.symm.trans hb'
  | next hb _ ih =>
    cases h' with
    | done hb' => cases hb.symm.trans hb'
    | next hb' h' =>
      cases hb.symm.trans hb'
      exact ih h'

theorem run_succ_next {n : ℕ} {s s' : σ} (h : body s = some (.next s')) :
    run body (n + 1) s = run body n s' := by
  rw [run, h]

theorem run_succ_done {n : ℕ} {s : σ} {r : ρ} (h : body s = some (.done r)) :
    run body (n + 1) s = some r := by
  rw [run, h]

/-- What the evaluation finds, the loop returns. -/
theorem returns_of_run {n : ℕ} {s : σ} {r : ρ} (h : run body n s = some r) :
    Returns body s r := by
  induction n generalizing s with
  | zero => cases h
  | succ n ih =>
    rw [run] at h
    split at h
    · cases h
    · next hs => exact .next hs (ih h)
    · next hs =>
      cases h
      exact .done hs

/-- The evaluation finds what the loop returns, given enough turns: more than
    a measure that every turn decreases. -/
theorem Returns.run_of_measure (μ : σ → ℕ)
    (hμ : ∀ s s', body s = some (.next s') → μ s' < μ s) {n : ℕ} {s : σ} {r : ρ}
    (h : Returns body s r) (hn : μ s < n) : run body n s = some r := by
  induction h generalizing n with
  | done hs =>
    obtain ⟨n, rfl⟩ := Nat.exists_eq_succ_of_ne_zero (Nat.ne_zero_of_lt hn)
    exact run_succ_done hs
  | next hs _ ih =>
    obtain ⟨n, rfl⟩ := Nat.exists_eq_succ_of_ne_zero (Nat.ne_zero_of_lt hn)
    rw [run_succ_next hs]
    exact ih (Nat.lt_of_lt_of_le (hμ _ _ hs) (Nat.lt_succ_iff.1 hn))

/-- Invariants: what every turn preserves holds up to the last turn. -/
theorem Returns.invariant (Inv : σ → Prop) (Post : ρ → Prop)
    (hnext : ∀ s s', Inv s → body s = some (.next s') → Inv s')
    (hdone : ∀ s r, Inv s → body s = some (.done r) → Post r)
    {s : σ} {r : ρ} (h : Returns body s r) (hs : Inv s) : Post r := by
  induction h with
  | done hb => exact hdone _ _ hs hb
  | next hb _ ih => exact ih (hnext _ _ hs hb)

/-- Total correctness: a loop whose every turn, from a state of the invariant,
    either ends in a result or decreases the measure, returns a result. -/
theorem run_total (Inv : σ → Prop) (Post : ρ → Prop) (μ : σ → ℕ)
    (hbody : ∀ s, Inv s → (∃ s', body s = some (.next s') ∧ Inv s' ∧ μ s' < μ s) ∨
      (∃ r, body s = some (.done r) ∧ Post r))
    {n : ℕ} {s : σ} (hs : Inv s) (hn : μ s < n) : ∃ r, run body n s = some r ∧ Post r := by
  induction n generalizing s with
  | zero => exact absurd hn (Nat.not_lt_zero _)
  | succ n ih =>
    rcases hbody s hs with ⟨s', hb, hs', hlt⟩ | ⟨r, hb, hr⟩
    · rw [run_succ_next hb]
      exact ih hs' (Nat.lt_of_lt_of_le hlt (Nat.lt_succ_iff.1 hn))
    · exact ⟨r, run_succ_done hb, hr⟩

end Loop

end Lib
