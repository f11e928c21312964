import Cppnet.Util.ResourcePool
import Mathlib.Data.List.Count

/-!
# When `make()` fails

`get` counts a resource as borrowed before `make()` makes it. If that throws, the resource stays counted, and
there is none to give back: the pool counts the resources that are borrowed and the calls of `make()` that
failed (`Counted`).

* `failed_makes_iff`: a run does no harm to the pool if and only if none of its calls of `make()` throws, and
  `get` makes a resource while those borrowed and those that failed are fewer than there may be.
-/

namespace Cppnet.Util

open Lib

namespace Threads

variable {τ : Type*} [DecidableEq τ]

/-- The turn of a thread, with a `make()` that makes a resource, or a call of `get` with one that throws. -/
inductive Attempt (τ : Type*)
  | act (a : Action τ)
  | failing (t : τ)

/-- One turn of a thread. -/
def attempt (s : Threads τ) : Attempt τ → Option (Outcome ℕ × Threads τ)
  | .act a => s.step a
  | .failing t => if t ∈ s.waiting then none else (s.pool.get none).map (after s t)

/-- The pool counts the resources that are borrowed, and `k` that were never made. -/
structure Counted (s : Threads τ) (maxSize k : ℕ) : Prop where
  max : s.pool.maxSize = maxSize
  borrowed : s.pool.numBorrowed = s.borrowed.length + k

/-- A turn does no harm: a call of `make()` that throws leaves the pool as it was, and `get` makes a resource,
    if there is none in the pool, and fewer are borrowed than there may be. -/
def Harmless (s : Threads τ) (a : Attempt τ) : Prop :=
  (∀ s', s.attempt a = some (.threw, s') → s'.pool = s.pool) ∧
    ∀ t ∉ s.waiting, s.pool.pool = [] → s.borrowed.length < s.pool.maxSize →
      ∃ s', s.attempt (.act (.get t)) = some (.borrowed s.next, s')

/-- In its turn, a thread calls a `make()` that throws. -/
def MakeThrows (s : Threads τ) (a : Attempt τ) : Prop :=
  ∃ t, a = .failing t ∧ t ∉ s.waiting ∧ s.pool.pool = [] ∧ s.pool.numBorrowed < s.pool.maxSize

/-- What a turn counts: a resource that is borrowed, or one that is given back, or none. -/
def Counts (s s' : Threads τ) : Prop :=
  (∃ res, s'.borrowed = res :: s.borrowed ∧ s'.pool.numBorrowed = s.pool.numBorrowed + 1) ∨
    (∃ res ∈ s.borrowed, s'.borrowed = s.borrowed.erase res ∧
      s'.pool.numBorrowed = s.pool.numBorrowed - 1) ∨
    s'.borrowed = s.borrowed ∧ s'.pool.numBorrowed = s.pool.numBorrowed

section Turns

variable {s s' : Threads τ} {o : Outcome ℕ}

theorem step_counts {a : Action τ} (h : s.step a = some (o, s')) :
    o ≠ .threw ∧ s'.pool.maxSize = s.pool.maxSize ∧ Counts s s' := by
  rcases step_cases h with ⟨-, -, rfl, rfl⟩ | ⟨-, -, rfl, t, rfl⟩ | ⟨rfl, rfl⟩ |
    ⟨res, rest, s₁, hready, -, rfl, rfl⟩ | ⟨res, hres, rfl, rfl⟩
  · exact ⟨by simp, rfl, .inl ⟨_, rfl, rfl⟩⟩
  · exact ⟨by simp, rfl, .inr (.inr ⟨rfl, rfl⟩)⟩
  · exact ⟨by simp, rfl, .inr (.inr ⟨rfl, rfl⟩)⟩
  · refine ⟨by simp, ?_⟩
    rcases hready with rfl | rfl | ⟨t, -, rfl⟩ <;> exact ⟨rfl, .inl ⟨_, rfl, rfl⟩⟩
  · have hput : (s.pool.put res).maxSize = s.pool.maxSize ∧
        (s.pool.put res).numBorrowed = s.pool.numBorrowed - 1 := by
      rw [ResourcePool.put]
      dsimp only
      split_ifs <;> exact ⟨rfl, rfl⟩
    exact ⟨by simp, hput.1, .inr (.inl ⟨res, hres, rfl, hput.2⟩)⟩

/-- Every turn counts what it borrows and gives back, unless its `make()` throws. -/
theorem attempt_counts {a : Attempt τ} (h : s.attempt a = some (o, s')) :
    s'.pool.maxSize = s.pool.maxSize ∧
      ((o = .threw ∧ MakeThrows s a ∧ s'.borrowed = s.borrowed ∧
          s'.pool.numBorrowed = s.pool.numBorrowed + 1) ∨
        (o ≠ .threw ∧ ¬MakeThrows s a ∧ Counts s s')) := by
  cases a with
  | act a =>
    obtain ⟨hout, hmax, hcounts⟩ := step_counts h
    refine ⟨hmax, .inr ⟨hout, ?_, hcounts⟩⟩
    rintro ⟨t, heq, -⟩
    cases heq
  | failing t =>
    rw [attempt] at h
    split_ifs at h with hwaits
    rw [ResourcePool.get] at h
    split_ifs at h with hpool hlt
    · cases h
      exact ⟨rfl, .inl ⟨rfl, ⟨t, rfl, hwaits, hpool, hlt⟩, rfl, rfl⟩⟩
    · cases h
      refine ⟨rfl, .inr ⟨by simp, ?_, .inr (.inr ⟨rfl, rfl⟩)⟩⟩
      rintro ⟨-, -, -, -, hlt'⟩
      exact hlt hlt'
    · obtain ⟨res, rest, hcons⟩ := List.exists_cons_of_ne_nil hpool
      rw [ResourcePool.take, hcons] at h
      cases h
      refine ⟨rfl, .inr ⟨by simp, ?_, .inl ⟨res, rfl, rfl⟩⟩⟩
      rintro ⟨-, -, -, hpool', -⟩
      exact hpool hpool'

end Turns

section Runs

variable {s s' : Threads τ} {a : Attempt τ} {o : Outcome ℕ} {n k : ℕ} (h : s.Counted n k)

include h

theorem Counted.attempt (hstep : s.attempt a = some (o, s')) :
    s'.Counted n (k + if o = .threw then 1 else 0) := by
  have hborrowed := h.borrowed
  obtain ⟨hmax, ⟨rfl, -, hsame, hcount⟩ | ⟨hout, -, hcounts⟩⟩ := attempt_counts hstep
  · refine ⟨hmax.trans h.max, ?_⟩
    rw [if_pos rfl, hsame, hcount, hborrowed, Nat.add_assoc]
  · refine ⟨hmax.trans h.max, ?_⟩
    rw [if_neg hout, Nat.add_zero]
    rcases hcounts with ⟨res, hcons, hcount⟩ | ⟨res, hres, herase, hcount⟩ | ⟨hsame, hcount⟩
    · rw [hcons, hcount, List.length_cons, hborrowed]
      omega
    · -- What is given back was borrowed, so it was counted.
      have hpos : 0 < s.borrowed.length := List.length_pos_of_mem hres
      rw [herase, hcount, List.length_erase_of_mem hres, hborrowed]
      omega
    · rw [hsame, hcount, hborrowed]

theorem Counted.run {as : List (Attempt τ)} {os : List (Outcome ℕ)}
    (hexec : exec Threads.attempt s as = some (os, s')) : s'.Counted n (k + os.count .threw) := by
  induction as generalizing s k os with
  | nil =>
    cases hexec
    exact h
  | cons a as ih =>
    obtain ⟨o, s₁, os', hstep, hrest, rfl⟩ := exec_cons_eq_some.1 hexec
    have hs' := ih (h.attempt hstep) hrest
    have hcount : (o :: os').count .threw = (if o = .threw then 1 else 0) + os'.count .threw := by
      rw [List.count_cons, Nat.add_comm]
      simp only [beq_iff_eq]
    rwa [hcount, ← Nat.add_assoc]

/-- `get` makes a resource while those borrowed and those that failed are fewer than there may be. -/
theorem Counted.makes_iff {t : τ} (ht : t ∉ s.waiting) (hpool : s.pool.pool = []) :
    (∃ s', s.attempt (.act (.get t)) = some (.borrowed s.next, s')) ↔ s.borrowed.length + k < n := by
  rw [Threads.attempt, step, if_neg ht, ResourcePool.get, if_pos hpool, ← h.borrowed, ← h.max]
  split_ifs with hlt
  · exact iff_of_true ⟨_, rfl⟩ hlt
  · refine iff_of_false ?_ hlt
    rintro ⟨s', heq⟩
    cases heq

omit h in
/-- Without a failure before it, a turn does no harm unless its `make()` throws. -/
theorem Counted.harmless_iff (h : s.Counted n 0) (a : Attempt τ) : Harmless s a ↔ ¬MakeThrows s a := by
  constructor
  · rintro ⟨hkept, -⟩ hthrows
    obtain ⟨t, rfl, ht, hpool, hlt⟩ := hthrows
    have hstep : s.attempt (.failing t) =
        some (.threw, { s with pool := { s.pool with numBorrowed := s.pool.numBorrowed + 1 } }) := by
      rw [Threads.attempt, if_neg ht, ResourcePool.get, if_pos hpool, if_pos hlt]
      rfl
    have hsame := congrArg ResourcePool.numBorrowed (hkept _ hstep)
    exact Nat.succ_ne_self _ hsame
  · intro hnot
    refine ⟨fun s' hstep => ?_, fun t ht hpool hlt => ?_⟩
    · obtain ⟨-, ⟨-, hthrows, -⟩ | ⟨hout, -⟩⟩ := attempt_counts hstep
      · exact absurd hthrows hnot
      · exact absurd rfl hout
    · rw [h.max] at hlt
      exact (h.makes_iff ht hpool).2 hlt

end Runs

/-- Whatever the order in which any threads borrow and give back resources: the turns do no harm if and only if
    none of the calls of `make()` throws. After any number of failures, the pool counts the resources that are
    borrowed and the failures, and `get` makes a resource while these are fewer than there may be. -/
theorem failed_makes_iff (targetSize maxSize : ℕ) (actions : List (Attempt τ)) :
    (Along attempt Harmless { pool := { targetSize, maxSize } } actions ↔
        Along attempt (fun s a => ¬MakeThrows s a) { pool := { targetSize, maxSize } } actions) ∧
      ∀ outs s, exec attempt { pool := { targetSize, maxSize } } actions = some (outs, s) →
        s.pool.numBorrowed = s.borrowed.length + outs.count .threw ∧
          ∀ t ∉ s.waiting, s.pool.pool = [] →
            ((∃ s', s.attempt (.act (.get t)) = some (.borrowed s.next, s')) ↔
              s.borrowed.length + outs.count .threw < maxSize) := by
  have hinit : Counted ({ pool := { targetSize, maxSize } } : Threads τ) maxSize 0 := ⟨rfl, rfl⟩
  refine ⟨along_congr (Counted · maxSize 0) (fun s a h => h.harmless_iff a)
    (fun s a o s' h hnot hstep => ?_) hinit, fun outs s hexec => ?_⟩
  · have hs' := h.attempt hstep
    obtain ⟨-, ⟨-, hthrows, -⟩ | ⟨hout, -⟩⟩ := attempt_counts hstep
    · exact absurd hthrows hnot
    · rwa [if_neg hout] at hs'
  · have hs := hinit.run hexec
    rw [Nat.zero_add] at hs
    exact ⟨hs.borrowed, fun t ht hpool => hs.makes_iff ht hpool⟩

/-- At most one resource, and a call of `make()` that fails: the pool counts it, and the next `get` waits. -/
theorem failed_make_waits :
    let init : Threads Bool := { pool := { targetSize := 1, maxSize := 1 } }
    ¬Along attempt Harmless init [.failing true] ∧
      ∃ s, exec attempt init [.failing true, .act (.get false)] = some ([.threw, .waits], s) ∧
        s.pool.numBorrowed = 1 ∧ s.borrowed = [] := by
  intro init
  refine ⟨?_, _, rfl, rfl, rfl⟩
  rintro ⟨⟨hkept, -⟩, -⟩
  exact absurd (congrArg ResourcePool.numBorrowed (hkept _ rfl)) (by decide)

end Threads

end Cppnet.Util
