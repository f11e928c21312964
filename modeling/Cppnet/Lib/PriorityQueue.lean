import Cppnet.Lib.Loop
import Mathlib.Data.List.Sort
import Mathlib.Data.Multiset.Bind

/-!
# Priority queues

Elements with keys, of which one with a greatest key is at the top.

* `MaxQueue`: what such a queue promises. It does not say which one is at the top, of those with equal keys.
* `popWhile`: a loop that pops elements as long as the one at the top has a property, and has some output for each.
  As the one at the top is a greatest one, the loop over those with a key up to a bound pops all elements or none
  (`popWhile_le`).
* `PriorityQueue`: a queue as a list, in the order of the keys. Of those with equal keys, the latest comes first.
-/

namespace Lib

/-- A queue with an element of a greatest key at the top. -/
class MaxQueue (Q : Type*) {α κ : outParam Type*} [LE κ] (key : outParam (α → κ)) where
  empty : Q
  push : Q → α → Q
  top : Q → Option α
  /-- Without the element at the top. -/
  pop : Q → Q
  /-- The elements, in no order. -/
  elems : Q → Multiset α
  elems_empty : elems empty = 0
  elems_push : ∀ q a, elems (push q a) = a ::ₘ elems q
  elems_of_top_eq_none : ∀ {q}, top q = none → elems q = 0
  elems_pop : ∀ {q a}, top q = some a → elems q = a ::ₘ elems (pop q)
  le_top : ∀ {q a}, top q = some a → ∀ b ∈ elems q, key b ≤ key a

namespace MaxQueue

variable {Q α β κ : Type*} [LinearOrder κ] {key : α → κ} [MaxQueue Q key]

/-- One turn of a loop that pops the elements with a property, as long as one is at the top. -/
def popTurn (p : α → Bool) (f : α → List β) (s : List β × Q) : Option (Turn (List β × Q) (List β × Q)) :=
  match top s.2 with
  | none => some (.done s)
  | some a => if p a then some (.next (s.1 ++ f a, pop s.2)) else some (.done s)

/-- The loop, with all of its output. -/
def popWhile (p : α → Bool) (f : α → List β) (q : Q) : Option (List β × Q) :=
  Loop.run (popTurn p f) ((elems q).card + 1) ([], q)

/-- What is still to come of the output, from a state of the loop: that of the elements that are left. -/
def rest (f : α → List β) (q : Q) : Multiset β := (elems q).bind fun a => (f a : Multiset β)

/-- One turn, if all elements have the property. -/
theorem popTurn_of_forall {p : α → Bool} (f : α → List β) (out : List β) {q : Q} (h : ∀ a ∈ elems q, p a) :
    (∃ out' q', popTurn p f (out, q) = some (.next (out', q')) ∧ (∀ a ∈ elems q', p a) ∧
        (out' : Multiset β) + rest f q' = out + rest f q ∧ (elems q').card < (elems q).card) ∨
      popTurn p f (out, q) = some (.done (out, q)) ∧ elems q = 0 := by
  cases htop : top q with
  | none => exact .inr ⟨by rw [popTurn, htop], elems_of_top_eq_none htop⟩
  | some a =>
    have hpop := elems_pop htop
    rw [hpop] at h
    refine .inl ⟨out ++ f a, pop q, ?_, fun b hb => h b (Multiset.mem_cons_of_mem hb), ?_, ?_⟩
    · rw [popTurn, htop]
      simp [h a (Multiset.mem_cons_self a _)]
    · rw [rest, rest, hpop, Multiset.cons_bind, ← Multiset.coe_add, add_assoc]
    · rw [hpop, Multiset.card_cons]
      exact Nat.lt_succ_self _

/-- As long as all elements have the property, all of them are popped. -/
theorem popWhile_of_forall {p : α → Bool} (f : α → List β) {q : Q} (h : ∀ a ∈ elems q, p a) :
    ∃ out q', popWhile p f q = some (out, q') ∧ (out : Multiset β) = rest f q ∧ elems q' = 0 := by
  obtain ⟨⟨out, q'⟩, hrun, hout, hq'⟩ := Loop.run_total
    (fun s : List β × Q => (∀ a ∈ elems s.2, p a) ∧ (s.1 : Multiset β) + rest f s.2 = rest f q)
    (fun s : List β × Q => (s.1 : Multiset β) = rest f q ∧ elems s.2 = 0) (fun s : List β × Q => (elems s.2).card)
    (fun ⟨out, q₁⟩ ⟨hp, hout⟩ => by
      rcases popTurn_of_forall f out hp with ⟨out', q₂, hturn, hp', hout', hlt⟩ | ⟨hturn, hzero⟩
      · exact .inl ⟨(out', q₂), hturn, ⟨hp', hout'.trans hout⟩, hlt⟩
      · refine .inr ⟨(out, q₁), hturn, ?_, hzero⟩
        dsimp only at hout
        rwa [rest, hzero, Multiset.zero_bind, add_zero] at hout)
    (s := ([], q)) ⟨h, by simp⟩ (Nat.lt_succ_self _)
  exact ⟨out, q', hrun, hout, hq'⟩

/-- Of the elements with a key up to a bound, all are popped if there are no others, and none otherwise. -/
theorem popWhile_le (bound : κ) (f : α → List β) (q : Q) :
    ∃ out q', popWhile (fun a => decide (key a ≤ bound)) f q = some (out, q') ∧
      ((∀ a ∈ elems q, key a ≤ bound) ∧ (out : Multiset β) = rest f q ∧ elems q' = 0 ∨
        (∃ a ∈ elems q, bound < key a) ∧ out = [] ∧ q' = q) := by
  by_cases h : ∀ a ∈ elems q, key a ≤ bound
  · obtain ⟨out, q', hrun, hout, hq'⟩ := popWhile_of_forall (p := fun a => decide (key a ≤ bound)) f (q := q)
      (by simpa using h)
    exact ⟨out, q', hrun, .inl ⟨h, hout, hq'⟩⟩
  · push Not at h
    obtain ⟨a, ha, hlt⟩ := h
    cases htop : top q with
    | none =>
      rw [elems_of_top_eq_none htop] at ha
      exact absurd ha (Multiset.notMem_zero a)
    | some b =>
      -- The one at the top is greater still.
      have hb : ¬key b ≤ bound := not_le.2 (hlt.trans_le (le_top htop a ha))
      refine ⟨[], q, Loop.run_succ_done ?_, .inr ⟨⟨a, ha, hlt⟩, rfl, rfl⟩⟩
      rw [popTurn, htop]
      simp [hb]

end MaxQueue

/-- A queue of elements with keys, the greatest key first. -/
structure PriorityQueue {α : Type*} (key : α → ℕ) where
  entries : List α
  sorted : entries.Pairwise fun a b => key b ≤ key a

namespace PriorityQueue

variable {α : Type*} {key : α → ℕ}

/-- No elements. -/
def empty : PriorityQueue key := ⟨[], .nil⟩

/-- The element at the top. -/
def top (q : PriorityQueue key) : Option α := q.entries.head?

/-- Without the element at the top. -/
def pop (q : PriorityQueue key) : PriorityQueue key := ⟨q.entries.tail, q.sorted.tail⟩

instance : Std.Total fun a b : α => key b ≤ key a := ⟨fun a b => Nat.le_total (key b) (key a)⟩

instance : IsTrans α fun a b => key b ≤ key a := ⟨fun _ _ _ hab hbc => hbc.trans hab⟩

/-- One more element. -/
def push (q : PriorityQueue key) (a : α) : PriorityQueue key :=
  ⟨q.entries.orderedInsert (fun a b => key b ≤ key a) a, q.sorted.orderedInsert a _⟩

theorem mem_push {q : PriorityQueue key} {a b : α} : b ∈ (q.push a).entries ↔ b = a ∨ b ∈ q.entries :=
  List.mem_orderedInsert _

theorem mem_of_mem_pop {q : PriorityQueue key} {a : α} (h : a ∈ q.pop.entries) : a ∈ q.entries :=
  List.mem_of_mem_tail h

theorem mem_of_top {q : PriorityQueue key} {a : α} (h : q.top = some a) : a ∈ q.entries :=
  List.mem_of_mem_head? h

instance : MaxQueue (PriorityQueue key) key where
  empty := empty
  push := push
  top := top
  pop := pop
  elems q := q.entries
  elems_empty := rfl
  elems_push q a := Multiset.coe_eq_coe.2 (List.perm_orderedInsert _ a q.entries)
  elems_of_top_eq_none h := by rw [List.head?_eq_none_iff.1 h, Multiset.coe_nil]
  elems_pop {q a} h := by
    obtain ⟨rest, hrest⟩ := List.head?_eq_some_iff.1 h
    have htail : q.pop.entries = rest := congrArg List.tail hrest
    rw [htail, hrest, Multiset.cons_coe]
  le_top {q a} h b hb := by
    obtain ⟨rest, hrest⟩ := List.head?_eq_some_iff.1 h
    have hsorted := q.sorted
    rw [hrest] at hsorted hb
    rcases List.mem_cons.1 (Multiset.mem_coe.1 hb) with rfl | hb
    · exact le_rfl
    · exact (List.pairwise_cons.1 hsorted).1 b hb

end PriorityQueue

end Lib
