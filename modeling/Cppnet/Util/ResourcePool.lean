import Cppnet.Lib.Machine
import Mathlib.Data.List.Nodup
import Mathlib.Order.Nat

/-!
# `resource_pool`

`util/resource_pool.hpp`: resources that are borrowed, given back, and borrowed again. There are at most
`max_size` of them: when all are borrowed, `get` waits for one.

The critical sections of `get`, `try_get` and `put` are the functions of the pool. The threads that call
them take their turns in any order (`Threads.step`): a thread in `get` that waits goes on, in a turn of
its own, at any time the pool is not empty, so that others may come before it.

* `accounting`: whatever the order, the pool counts what is borrowed, no resource is borrowed twice,
  and a thread only waits while there are as many resources as there may be.
-/

namespace Cppnet.Util

open Lib

/-- `resource_pool`, with the resources that are not borrowed, the back of the vector first. -/
structure ResourcePool (ρ : Type*) where
  targetSize : ℕ
  maxSize : ℕ
  pool : List ρ := []
  numWaiting : ℕ := 0
  numBorrowed : ℕ := 0

/-- What a call comes to, for the thread that makes it. -/
inductive Outcome (ρ : Type*)
  | borrowed (res : ρ)
  | waits
  | nothing
  | threw
  | released
  deriving DecidableEq

namespace ResourcePool

variable {ρ : Type*} (p : ResourcePool ρ)

/-- Taking the back of the vector, which is undefined if it is empty. -/
def take : Option (Outcome ρ × ResourcePool ρ) :=
  match p.pool with
  | [] => none
  | res :: pool => some (.borrowed res, { p with pool, numBorrowed := p.numBorrowed + 1 })

/-- `get`, up to where it returns, or waits. What `make()` gives is `made`, if it does not throw. -/
def get (made : Option ρ) : Option (Outcome ρ × ResourcePool ρ) :=
  if p.pool = [] then
    if p.numBorrowed < p.maxSize then
      some (made.elim .threw .borrowed, { p with numBorrowed := p.numBorrowed + 1 })
    else some (.waits, { p with numWaiting := p.numWaiting + 1 })
  else p.take

/-- `get`, from where it waited on. -/
def wake : Option (Outcome ρ × ResourcePool ρ) := take { p with numWaiting := p.numWaiting - 1 }

/-- `try_get`. -/
def tryGet : Option (Outcome ρ × ResourcePool ρ) :=
  if p.pool = [] then some (.nothing, p) else p.take

/-- `put`: over the target size, and with no one waiting, the resource is dropped. -/
def put (res : ρ) : ResourcePool ρ :=
  let p := { p with numBorrowed := p.numBorrowed - 1 }
  if p.pool.length ≥ p.targetSize ∧ p.numWaiting = 0 then p
  else { p with pool := res :: p.pool }

end ResourcePool

/-! ## Threads -/

/-- A pool, and the threads that use it: the resources they hold, those of them that wait, and the number
    of the next resource `make()` gives. -/
structure Threads (τ : Type*) where
  pool : ResourcePool ℕ
  borrowed : List ℕ := []
  waiting : List τ := []
  next : ℕ := 0

/-- The turn of a thread: calling `get` or `try_get`, going on after it waited, or giving back a resource,
    as the destructor of a `borrowed_resource` does. -/
inductive Threads.Action (τ : Type*)
  | get (t : τ)
  | tryGet (t : τ)
  | wake (t : τ)
  | release (t : τ) (res : ℕ)

namespace Threads

variable {τ : Type*} [DecidableEq τ]

/-- After a call: what the thread holds, or that it waits. -/
def after (s : Threads τ) (t : τ) : Outcome ℕ × ResourcePool ℕ → Outcome ℕ × Threads τ
  | (.borrowed res, pool) => (.borrowed res, { s with pool, borrowed := res :: s.borrowed })
  | (.waits, pool) => (.waits, { s with pool, waiting := t :: s.waiting })
  | (out, pool) => (out, { s with pool })

/-- One turn of a thread, if it is its turn: it does nothing else while it waits, and waits until the pool
    is not empty. -/
def step (s : Threads τ) : Action τ → Option (Outcome ℕ × Threads τ)
  | .get t =>
    if t ∈ s.waiting then none
    else (s.pool.get (some s.next)).map (after { s with next := s.next + 1 } t)
  | .tryGet t => if t ∈ s.waiting then none else s.pool.tryGet.map (after s t)
  | .wake t =>
    if t ∈ s.waiting ∧ s.pool.pool ≠ [] then
      s.pool.wake.map (after { s with waiting := s.waiting.erase t } t)
    else none
  | .release t res =>
    if t ∉ s.waiting ∧ res ∈ s.borrowed then
      some (.released, { s with pool := s.pool.put res, borrowed := s.borrowed.erase res })
    else none

/-- The number of resources there are. -/
def total (s : Threads τ) : ℕ := s.pool.pool.length + s.pool.numBorrowed

/-- What holds in every order of turns. -/
structure Inv (s : Threads τ) (maxSize : ℕ) : Prop where
  max : s.pool.maxSize = maxSize
  borrowed : s.pool.numBorrowed = s.borrowed.length
  waiting : s.pool.numWaiting = s.waiting.length
  le : s.total ≤ maxSize
  nodup : (s.pool.pool ++ s.borrowed).Nodup
  lt_next : ∀ res ∈ s.pool.pool ++ s.borrowed, res < s.next
  full : s.waiting ≠ [] → s.total = maxSize

omit [DecidableEq τ] in
theorem inv_init (targetSize maxSize : ℕ) :
    Inv { pool := { targetSize, maxSize } : Threads τ } maxSize where
  max := rfl
  borrowed := rfl
  waiting := rfl
  le := Nat.zero_le _
  nodup := List.nodup_nil
  lt_next := by simp
  full h := absurd rfl h

section Effects

variable {s : Threads τ} {n : ℕ} (h : s.Inv n)

include h

omit [DecidableEq τ] in
/-- The number of the next resource only grows. -/
theorem Inv.next : Inv { s with next := s.next + 1 } n :=
  { h with lt_next := fun res hres => Nat.lt_succ_of_lt (h.lt_next res hres) }

omit [DecidableEq τ] in
/-- One more resource, from `make()`. -/
theorem Inv.make (hpool : s.pool.pool = []) (hlt : s.pool.numBorrowed < s.pool.maxSize) :
    Inv { s with
      pool := { s.pool with numBorrowed := s.pool.numBorrowed + 1 }
      borrowed := s.next :: s.borrowed
      next := s.next + 1 } n where
  max := h.max
  borrowed := by
    rw [List.length_cons, ← h.borrowed]
  waiting := h.waiting
  le := by
    rw [total, hpool, List.length_nil, Nat.zero_add, ← h.max]
    exact hlt
  nodup := by
    have hnodup := h.nodup
    have hlt := h.lt_next
    rw [hpool, List.nil_append] at hnodup hlt
    rw [hpool, List.nil_append, List.nodup_cons]
    exact ⟨fun hmem => lt_irrefl _ (hlt _ hmem), hnodup⟩
  lt_next := by
    have hlt := h.lt_next
    rw [hpool, List.nil_append] at hlt ⊢
    rw [List.forall_mem_cons]
    exact ⟨Nat.lt_succ_self _, fun res hres => Nat.lt_succ_of_lt (hlt res hres)⟩
  full hne := by
    -- A thread that waits would have left no room for it.
    have hfull := h.full hne
    rw [total, hpool, List.length_nil, Nat.zero_add] at hfull
    rw [hfull, h.max] at hlt
    exact absurd hlt (lt_irrefl n)

omit [DecidableEq τ] in
/-- A thread starts to wait, as all resources are borrowed. -/
theorem Inv.wait (hpool : s.pool.pool = []) (hge : ¬s.pool.numBorrowed < s.pool.maxSize) (t : τ) :
    Inv { s with
      pool := { s.pool with numWaiting := s.pool.numWaiting + 1 }
      waiting := t :: s.waiting } n where
  max := h.max
  borrowed := h.borrowed
  waiting := by
    rw [List.length_cons, ← h.waiting]
  le := h.le
  nodup := h.nodup
  lt_next := h.lt_next
  full _ := by
    have hle := h.le
    rw [total, hpool, List.length_nil, Nat.zero_add] at hle ⊢
    rw [h.max] at hge
    exact le_antisymm hle (not_lt.1 hge)

omit [DecidableEq τ] in
/-- A resource is borrowed from the pool. -/
theorem Inv.take {res : ℕ} {rest : List ℕ} (hpool : s.pool.pool = res :: rest) :
    Inv { s with
      pool := { s.pool with pool := rest, numBorrowed := s.pool.numBorrowed + 1 }
      borrowed := res :: s.borrowed } n := by
  have htotal : rest.length + (s.pool.numBorrowed + 1) = s.total := by
    rw [total, hpool, List.length_cons]
    omega
  have hperm : (rest ++ res :: s.borrowed).Perm (s.pool.pool ++ s.borrowed) := by
    rw [hpool]
    exact List.perm_middle
  exact
    { max := h.max
      borrowed := by rw [List.length_cons, ← h.borrowed]
      waiting := h.waiting
      le := htotal.le.trans h.le
      nodup := hperm.nodup_iff.2 h.nodup
      lt_next := fun res hres => h.lt_next res (hperm.mem_iff.1 hres)
      full := fun hne => htotal.trans (h.full hne) }

/-- A thread does not wait any more. -/
theorem Inv.unwait {t : τ} (ht : t ∈ s.waiting) :
    Inv { s with
      pool := { s.pool with numWaiting := s.pool.numWaiting - 1 }
      waiting := s.waiting.erase t } n where
  max := h.max
  borrowed := h.borrowed
  waiting := by
    rw [List.length_erase_of_mem ht, ← h.waiting]
  le := h.le
  nodup := h.nodup
  lt_next := h.lt_next
  full _ := h.full (List.ne_nil_of_mem ht)

omit [DecidableEq τ] in
/-- A resource is given back. -/
theorem Inv.put {res : ℕ} (hres : res ∈ s.borrowed) :
    Inv { s with pool := s.pool.put res, borrowed := s.borrowed.erase res } n := by
  have hpos : 0 < s.borrowed.length := List.length_pos_of_mem hres
  have hlen : (s.borrowed.erase res).length = s.borrowed.length - 1 := List.length_erase_of_mem hres
  have hborrowed := h.borrowed
  have hsub : (s.pool.pool ++ s.borrowed.erase res).Sublist (s.pool.pool ++ s.borrowed) :=
    (List.erase_sublist).append_left _
  rw [ResourcePool.put]
  dsimp only
  split_ifs with hdrop
  · -- Nobody waits for the resource that is dropped.
    have hnil : s.waiting = [] := List.eq_nil_of_length_eq_zero (h.waiting.symm.trans hdrop.2)
    have hle := h.le
    rw [total] at hle
    exact
      { max := h.max
        borrowed := by rw [hlen, ← hborrowed]
        waiting := h.waiting
        le := by
          rw [total]
          dsimp only
          omega
        nodup := h.nodup.sublist hsub
        lt_next := fun r hr => h.lt_next r (hsub.subset hr)
        full := fun hne => absurd hnil hne }
  · have hperm : (res :: s.pool.pool ++ s.borrowed.erase res).Perm (s.pool.pool ++ s.borrowed) :=
      List.perm_middle.symm.trans ((List.perm_cons_erase hres).symm.append_left _)
    have htotal : (res :: s.pool.pool).length + (s.pool.numBorrowed - 1) = s.total := by
      rw [total, List.length_cons]
      omega
    exact
      { max := h.max
        borrowed := by rw [hlen, ← hborrowed]
        waiting := h.waiting
        le := htotal.le.trans h.le
        nodup := hperm.nodup_iff.2 h.nodup
        lt_next := fun r hr => h.lt_next r (hperm.mem_iff.1 hr)
        full := fun hne => htotal.trans (h.full hne) }

end Effects

/-- Before a thread takes a resource of the pool: it called `get` or `try_get`, or waited until now. -/
def Ready (s s₁ : Threads τ) : Prop :=
  s₁ = { s with next := s.next + 1 } ∨ s₁ = s ∨ ∃ t ∈ s.waiting, s₁ = { s with
    pool := { s.pool with numWaiting := s.pool.numWaiting - 1 }
    waiting := s.waiting.erase t }

/-- What a turn comes to: a resource that is made, a wait, nothing, a resource of the pool, or one that is given
    back. -/
theorem step_cases {s s' : Threads τ} {a : Action τ} {o : Outcome ℕ} (h : s.step a = some (o, s')) :
    (s.pool.pool = [] ∧ s.pool.numBorrowed < s.pool.maxSize ∧ o = .borrowed s.next ∧ s' = { s with
        pool := { s.pool with numBorrowed := s.pool.numBorrowed + 1 }
        borrowed := s.next :: s.borrowed
        next := s.next + 1 }) ∨
      (s.pool.pool = [] ∧ ¬s.pool.numBorrowed < s.pool.maxSize ∧ o = .waits ∧ ∃ t, s' = { s with
        pool := { s.pool with numWaiting := s.pool.numWaiting + 1 }
        waiting := t :: s.waiting
        next := s.next + 1 }) ∨
      (o = .nothing ∧ s' = s) ∨
      (∃ res rest s₁, s.Ready s₁ ∧ s₁.pool.pool = res :: rest ∧ o = .borrowed res ∧ s' = { s₁ with
        pool := { s₁.pool with pool := rest, numBorrowed := s₁.pool.numBorrowed + 1 }
        borrowed := res :: s₁.borrowed }) ∨
      ∃ res ∈ s.borrowed, o = .released ∧
        s' = { s with pool := s.pool.put res, borrowed := s.borrowed.erase res } := by
  cases a with
  | get t =>
    rw [step] at h
    split_ifs at h with hwaits
    rw [ResourcePool.get] at h
    split_ifs at h with hpool hlt
    · cases h
      exact .inl ⟨hpool, hlt, rfl, rfl⟩
    · cases h
      exact .inr (.inl ⟨hpool, hlt, rfl, t, rfl⟩)
    · obtain ⟨res, rest, hcons⟩ := List.exists_cons_of_ne_nil hpool
      rw [ResourcePool.take, hcons] at h
      cases h
      exact .inr (.inr (.inr (.inl ⟨res, rest, _, .inl rfl, hcons, rfl, rfl⟩)))
  | tryGet t =>
    rw [step] at h
    split_ifs at h with hwaits
    rw [ResourcePool.tryGet] at h
    split_ifs at h with hpool
    · cases h
      exact .inr (.inr (.inl ⟨rfl, rfl⟩))
    · obtain ⟨res, rest, hcons⟩ := List.exists_cons_of_ne_nil hpool
      rw [ResourcePool.take, hcons] at h
      cases h
      exact .inr (.inr (.inr (.inl ⟨res, rest, s, .inr (.inl rfl), hcons, rfl, rfl⟩)))
  | wake t =>
    rw [step] at h
    split_ifs at h with hwaits
    -- A thread that is woken takes a resource in the same turn.
    obtain ⟨res, rest, hcons⟩ := List.exists_cons_of_ne_nil hwaits.2
    rw [ResourcePool.wake, ResourcePool.take, hcons] at h
    cases h
    exact .inr (.inr (.inr (.inl ⟨res, rest, _, .inr (.inr ⟨t, hwaits.1, rfl⟩), hcons, rfl, rfl⟩)))
  | release t res =>
    rw [step] at h
    split_ifs at h with hres
    cases h
    exact .inr (.inr (.inr (.inr ⟨res, hres.2, rfl, rfl⟩)))

/-- Every turn of every thread preserves it. -/
theorem Inv.step {s s' : Threads τ} {a : Action τ} {o : Outcome ℕ} {n : ℕ} (h : s.Inv n)
    (hstep : s.step a = some (o, s')) : s'.Inv n := by
  rcases step_cases hstep with ⟨hpool, hlt, -, rfl⟩ | ⟨hpool, hge, -, t, rfl⟩ | ⟨-, rfl⟩ |
    ⟨res, rest, s₁, hready, hpool, -, rfl⟩ | ⟨res, hres, -, rfl⟩
  · exact h.make hpool hlt
  · exact h.next.wait hpool hge t
  · exact h
  · rcases hready with rfl | rfl | ⟨t, ht, rfl⟩
    · exact h.next.take hpool
    · exact h.take hpool
    · exact (h.unwait ht).take hpool
  · exact h.put hres

/-- Whatever the order in which any threads borrow and give back resources: the pool counts what is
    borrowed, there are never more resources than there may be, none is borrowed twice, or borrowed and
    in the pool, and while a thread waits, there are as many as there may be. -/
theorem accounting (targetSize maxSize : ℕ) (actions : List (Action τ)) (outs : List (Outcome ℕ))
    (s : Threads τ) (h : exec step { pool := { targetSize, maxSize } } actions = some (outs, s)) :
    s.pool.numBorrowed = s.borrowed.length ∧
      s.pool.pool.length + s.pool.numBorrowed ≤ maxSize ∧
      s.borrowed.Nodup ∧ (∀ res ∈ s.borrowed, res ∉ s.pool.pool) ∧
      (s.waiting ≠ [] → s.pool.pool.length + s.pool.numBorrowed = maxSize) := by
  have hinv : s.Inv maxSize :=
    exec_invariant (Inv · maxSize) (fun _ _ _ _ h hstep => h.step hstep) (inv_init targetSize maxSize) h
  obtain ⟨-, hnodup, hdisjoint⟩ := List.nodup_append.1 hinv.nodup
  exact ⟨hinv.borrowed, hinv.le, hnodup, fun res hres hpool => hdisjoint res hpool res hres rfl, hinv.full⟩

/-- Two threads and one resource: the second one waits, the first one gives it back and takes it again
    before the second one goes on. -/
theorem accounting_two :
    let actions : List (Action Bool) :=
      [.get true, .get false, .release true 0, .tryGet true, .release true 0, .wake false]
    ∃ outs s, exec step { pool := { targetSize := 0, maxSize := 1 } } actions = some (outs, s) ∧
      outs = [.borrowed 0, .waits, .released, .borrowed 0, .released, .borrowed 0] ∧
      s.pool.numBorrowed = s.borrowed.length ∧
      s.pool.pool.length + s.pool.numBorrowed ≤ 1 ∧
      s.borrowed.Nodup ∧ (∀ res ∈ s.borrowed, res ∉ s.pool.pool) ∧
      (s.waiting ≠ [] → s.pool.pool.length + s.pool.numBorrowed = 1) := by
  intro actions
  exact ⟨_, _, rfl, rfl, accounting 0 1 actions _ _ rfl⟩

end Threads

end Cppnet.Util
