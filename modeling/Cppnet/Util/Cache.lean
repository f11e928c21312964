import Cppnet.Lib.Loop
import Cppnet.Lib.Machine
import Cppnet.Lib.NodeList
import Mathlib.Data.List.Induction
import Mathlib.Data.List.TakeWhile

/-!
# `cache`

`util/cache.hpp`: a cache of at most `capacity` keys. Its entries are in a list, the newest one in front,
and a table gives the entry of each key.

The state after an operation is `none` where what the operation does is undefined: it follows an iterator
to an entry that is not there any more.
-/

namespace Cppnet.Util

open Lib

/-- `entry`. -/
structure Entry (K V : Type*) where
  key : K
  val : V
  visited : Bool := false

/-- `cache`. -/
structure Cache (K V : Type*) where
  capacity : ℕ
  lookup : K → Option ℕ
  entries : NodeList (Entry K V)
  hand : Iter

namespace Cache

variable {K V : Type*} [DecidableEq K]

/-- A new one. -/
def empty (capacity : ℕ) : Cache K V := ⟨capacity, fun _ => none, .empty, none⟩

/-- `size`. -/
def size (c : Cache K V) : ℕ := c.entries.nodes.length

/-- One turn of the loop of `evict`: a visited entry is not visited any more, and the one before it is
    next, or the last one, if it was the first. -/
def scan : NodeList (Entry K V) × Iter →
    Option (Turn (NodeList (Entry K V) × Iter) (NodeList (Entry K V) × ℕ))
  | (_, none) => none
  | (entries, some old) => (entries.deref old).bind fun e =>
      if e.visited then
        let entries := entries.modify old fun e => { e with visited := false }
        -- Before the first entry is the end, so the last one is looked for from there.
        let before := if entries.front = some old then entries.prev none else entries.prev (some old)
        before.map fun old => .next (entries, old)
      else some (.done (entries, old))

/-- `evict`. The loop takes at most as many turns as there are entries, and one. -/
def evict (c : Cache K V) : Option (Cache K V) :=
  (if c.hand = none then c.entries.prev c.hand else some c.hand).bind fun old =>
  (Loop.run scan (c.size + 1) (c.entries, old)).bind fun (entries, old) =>
  -- At the first entry, the hand goes to the end.
  (entries.prev (some old)).bind fun hand =>
  (entries.deref old).map fun e =>
    { c with
      hand
      lookup := fun k => if k = e.key then none else c.lookup k
      entries := entries.erase old }

/-- `set`. -/
def set (c : Cache K V) (key : K) (val : V) : Option (Cache K V) :=
  match c.lookup key with
  | some i => (c.entries.deref i).map fun _ =>
      -- The entry stays where it is in the list.
      { c with entries := c.entries.modify i fun e => { e with val, visited := true } }
  | none => (if c.size ≥ c.capacity then c.evict else some c).map fun c =>
      { c with
        entries := c.entries.pushFront { key, val }
        lookup := fun k => if k = key then some c.entries.next else c.lookup k }

/-- `get`. -/
def get (c : Cache K V) (key : K) : Option (Option V × Cache K V) :=
  match c.lookup key with
  | some i => (c.entries.deref i).map fun e =>
      (some e.val, { c with entries := c.entries.modify i fun e => { e with visited := true } })
  | none => some (none, c)

/-- `erase`. -/
def erase (c : Cache K V) (key : K) : Option (Bool × Cache K V) :=
  match c.lookup key with
  | some i =>
    (if c.hand = some i then c.entries.prev c.hand else some c.hand).bind fun hand =>
    (c.entries.deref i).map fun _ =>
      (true,
        { c with
          hand
          entries := c.entries.erase i
          lookup := fun k => if k = key then none else c.lookup k })
  | none => some (false, c)

/-- `purge`. -/
def purge (c : Cache K V) : Cache K V := { c with entries := c.entries.clear, lookup := fun _ => none }

/-- The operations on a cache, `purge` apart. -/
inductive Op (K V : Type*)
  | set (key : K) (val : V)
  | get (key : K)
  | erase (key : K)

/-- One operation, with what `get` returns. -/
def step (c : Cache K V) : Op K V → Option (Option V × Cache K V)
  | .set key val => (c.set key val).map fun c => (none, c)
  | .get key => c.get key
  | .erase key => (c.erase key).map fun (_, c) => (none, c)

/-! ## The loop of `evict` -/

/-- A node whose entry is not visited any more. -/
def cleared (x : ℕ × Entry K V) : ℕ × Entry K V := (x.1, { x.2 with visited := false })

section Scan

variable {entries : NodeList (Entry K V)} {A B S T : List (ℕ × Entry K V)} {x : ℕ × Entry K V}

omit [DecidableEq K] in
theorem scan_done (hl : entries.nodes = A ++ x :: B) (hx : x.2.visited = false) :
    scan (entries, some x.1) = some (.done (entries, x.1)) := by
  rw [scan, NodeList.deref_eq hl, Option.bind_some, if_neg (by simp [hx])]

omit [DecidableEq K] in
/-- A visited entry is cleared, and the one in front of it is next, or the last one. -/
theorem scan_next (hl : entries.nodes = A ++ x :: B) (hx : x.2.visited = true) :
    ∃ entries' : NodeList (Entry K V), entries'.nodes = A ++ cleared x :: B ∧ entries'.next = entries.next ∧
      scan (entries, some x.1) =
        some (.next (entries', if A = [] then entries'.back else A.getLast?.map Prod.fst)) := by
  have hl' := NodeList.nodes_modify hl fun e => { e with visited := false }
  refine ⟨_, hl', rfl, ?_⟩
  rw [scan, NodeList.deref_eq hl, Option.bind_some, if_pos hx]
  dsimp only
  have hfront : (entries.modify x.1 fun e => { e with visited := false }).front = some x.1 ↔ A = [] := by
    rw [NodeList.front, hl']
    rcases A with _ | ⟨y, A⟩
    · simp
    · have hne : y.1 ≠ x.1 := NodeList.ne_of_nodes hl y (by simp)
      simp [hne]
  by_cases hA : A = []
  · rw [if_pos (hfront.2 hA), if_pos hA]
    rfl
  · rw [if_neg (hfront.not.2 hA), if_neg hA, NodeList.prev_eq hl']
    rfl

omit [DecidableEq K] in
/-- From the end of a part of the list on: the loop stops at an entry of it, or gets through it. -/
theorem scan_segment (hl : entries.nodes = S ++ T) (hS : S ≠ []) :
    (∃ S₁ y S₂, S = S₁ ++ y :: S₂ ∧ y.2.visited = false ∧ (∀ z ∈ S₂, z.2.visited = true) ∧
      ∃ entries' : NodeList (Entry K V), entries'.nodes = S₁ ++ y :: (S₂.map cleared ++ T) ∧
        entries'.next = entries.next ∧
        Loop.Returns scan (entries, S.getLast?.map Prod.fst) (entries', y.1)) ∨
    ((∀ z ∈ S, z.2.visited = true) ∧
      ∃ entries' : NodeList (Entry K V), entries'.nodes = S.map cleared ++ T ∧
        entries'.next = entries.next ∧
        Loop.Reaches scan (entries, S.getLast?.map Prod.fst) (entries', entries'.back)) := by
  induction S using List.reverseRecOn generalizing entries T with
  | nil => exact absurd rfl hS
  | append_singleton S x ih =>
    rw [List.append_assoc, List.singleton_append] at hl
    have hlast : (S ++ [x]).getLast?.map Prod.fst = some x.1 := by simp
    rw [hlast]
    by_cases hx : x.2.visited = true
    · obtain ⟨entries₁, hl₁, hnext₁, hscan⟩ := scan_next hl hx
      by_cases hnil : S = []
      · -- The first entry of the list: the last one is next.
        rw [if_pos hnil] at hscan
        refine .inr ⟨by simpa [hnil] using hx, entries₁, by simpa [hnil] using hl₁, hnext₁, ?_⟩
        exact .next hscan (.refl _)
      · rw [if_neg hnil] at hscan
        rcases ih hl₁ hnil with ⟨S₁, y, S₂, rfl, hy, hS₂, entries', hl', hnext', hret⟩ |
          ⟨hall, entries', hl', hnext', hreach⟩
        · refine .inl ⟨S₁, y, S₂ ++ [x], by simp, hy, ?_, entries', ?_, hnext'.trans hnext₁,
            .next hscan hret⟩
          · rw [List.forall_mem_append, List.forall_mem_singleton]
            exact ⟨hS₂, hx⟩
          · simpa using hl'
        · refine .inr ⟨?_, entries', by simpa using hl', hnext'.trans hnext₁, .next hscan hreach⟩
          rw [List.forall_mem_append, List.forall_mem_singleton]
          exact ⟨hall, hx⟩
    · rw [Bool.not_eq_true] at hx
      exact .inl ⟨S, x, [], rfl, hx, by simp, entries, by simpa using hl, rfl, .done (scan_done hl hx)⟩

/-- The nodes of a list, those with the given addresses cleared. -/
def clearIds (ids : List ℕ) (x : ℕ × Entry K V) : ℕ × Entry K V := if x.1 ∈ ids then cleared x else x

omit [DecidableEq K] in
/-- Only the mark of an entry changes. -/
theorem clearIds_eq (ids : List ℕ) (x : ℕ × Entry K V) :
    (clearIds ids x).1 = x.1 ∧ (clearIds ids x).2.key = x.2.key ∧ (clearIds ids x).2.val = x.2.val := by
  rw [clearIds]
  split_ifs <;> exact ⟨rfl, rfl, rfl⟩

omit [DecidableEq K] in
theorem map_clearIds_of_subset {ids : List ℕ} (h : ∀ z ∈ S, z.1 ∈ ids) :
    S.map (clearIds ids) = S.map cleared :=
  List.map_congr_left fun z hz => if_pos (h z hz)

omit [DecidableEq K] in
theorem map_clearIds_of_disjoint {ids : List ℕ} (h : ∀ z ∈ S, z.1 ∉ ids) : S.map (clearIds ids) = S :=
  (List.map_congr_left fun z hz => if_neg (h z hz)).trans (List.map_id S)

omit [DecidableEq K] in
/-- Those of two parts of the list are cleared, and the others are left alone. -/
theorem map_clearIds_parts {P₁ R₁ P₂ R₂ Q : List (ℕ × Entry K V)}
    (hl : entries.nodes = P₁ ++ (R₁ ++ (P₂ ++ R₂))) (hQ : Q.Perm (P₁ ++ P₂)) :
    entries.nodes.map (clearIds (Q.map Prod.fst)) = P₁.map cleared ++ (R₁ ++ (P₂.map cleared ++ R₂)) := by
  have hpassed : ∀ z ∈ P₁ ++ P₂, z.1 ∈ Q.map Prod.fst := fun z hz => List.mem_map_of_mem (hQ.mem_iff.2 hz)
  -- Addresses are different, so those of the other parts are not cleared.
  have hperm : entries.nodes.Perm ((R₁ ++ R₂) ++ Q) := by
    calc entries.nodes = P₁ ++ (R₁ ++ (P₂ ++ R₂)) := hl
      List.Perm _ (R₁ ++ (P₁ ++ (P₂ ++ R₂))) := List.perm_append_comm_assoc _ _ _
      List.Perm _ (R₁ ++ (R₂ ++ (P₁ ++ P₂))) := by
        rw [← List.append_assoc P₁]
        exact List.perm_append_comm.append_left R₁
      List.Perm _ (R₁ ++ (R₂ ++ Q)) := (hQ.symm.append_left R₂).append_left R₁
      _ = (R₁ ++ R₂) ++ Q := (List.append_assoc _ _ _).symm
  have hother := NodeList.not_mem_of_perm hperm
  rw [List.forall_mem_append] at hpassed hother
  rw [hl, List.map_append, List.map_append, List.map_append, map_clearIds_of_subset hpassed.1,
    map_clearIds_of_disjoint hother.1, map_clearIds_of_subset hpassed.2, map_clearIds_of_disjoint hother.2]

/-- The entries in the order the loop looks at them, from `x` to the first one and from the last one on. -/
def scanOrder (A : List (ℕ × Entry K V)) (x : ℕ × Entry K V) (B : List (ℕ × Entry K V)) :
    List (ℕ × Entry K V) :=
  (A ++ [x]).reverse ++ B.reverse

/-- The addresses of those it passes. -/
def passedIds (order : List (ℕ × Entry K V)) : List ℕ :=
  (order.takeWhile fun z => z.2.visited).map Prod.fst

omit [DecidableEq K] in
/-- Up to the first entry that was not visited. -/
theorem passed_of_append {P Q : List (ℕ × Entry K V)} {y : ℕ × Entry K V}
    (hP : ∀ z ∈ P, z.2.visited = true) (hy : y.2.visited = false) :
    passedIds (P ++ y :: Q) = P.map Prod.fst ∧
      ((P ++ y :: Q).find? fun z => !z.2.visited) = some y := by
  have hnone : (P.find? fun z => !z.2.visited) = none := by
    rw [List.find?_eq_none]
    exact fun z hz => by simp [hP z hz]
  constructor
  · rw [passedIds, List.takeWhile_append_of_pos hP, List.takeWhile_cons_of_neg (by simp [hy]), List.append_nil]
  · rw [List.find?_append, hnone, List.find?_cons_of_pos (by simp [hy])]
    rfl

omit [DecidableEq K] in
/-- All entries were visited. -/
theorem passed_of_forall {P : List (ℕ × Entry K V)} (hP : ∀ z ∈ P, z.2.visited = true) :
    passedIds P = P.map Prod.fst ∧ (P.find? fun z => !z.2.visited) = none := by
  constructor
  · rw [passedIds, List.takeWhile_eq_self_iff.2 hP]
  · rw [List.find?_eq_none]
    exact fun z hz => by simp [hP z hz]

omit [DecidableEq K] in
/-- Where the loop stops the second time around: behind the entry it started with, or there. -/
theorem split_cleared {S₁ S₂ : List (ℕ × Entry K V)} {y : ℕ × Entry K V}
    (h : (A ++ [x]).map cleared ++ B = S₁ ++ y :: S₂) (hS₂ : ∀ z ∈ S₂, z.2.visited = true) :
    (∃ B₁, S₁ = (A ++ [x]).map cleared ++ B₁ ∧ B = B₁ ++ y :: S₂) ∨
      (S₁ = A.map cleared ∧ y = cleared x ∧ S₂ = B) := by
  rcases List.append_eq_append_iff.1 h with ⟨B₁, hS₁, hB⟩ | ⟨C, hC, hB⟩
  · exact .inl ⟨B₁, hS₁, hB⟩
  · rw [List.map_append, List.map_singleton] at hC
    rcases C.eq_nil_or_concat with rfl | ⟨C, z, rfl⟩
    · exact .inl ⟨[], by simpa using hC.symm, hB.symm⟩
    · rw [List.concat_eq_append, ← List.append_assoc] at hC
      obtain ⟨hA, hz⟩ := List.append_inj' hC rfl
      obtain rfl : cleared x = z := List.singleton_inj.1 hz
      rcases C with _ | ⟨w, C⟩
      · obtain ⟨rfl, rfl⟩ := List.cons.inj hB
        exact .inr ⟨by simpa using hA.symm, rfl, rfl⟩
      · -- The entry it started with is not visited any more.
        obtain ⟨-, rfl⟩ := List.cons.inj hB
        have hx := hS₂ (cleared x) (by simp)
        cases hx

/-- Where the loop stops, and what it leaves: it stops at the first entry that was not visited, or at the one it
    started with, if all were, and those it passed before are cleared. -/
def Stops (entries : NodeList (Entry K V)) (A : List (ℕ × Entry K V)) (x : ℕ × Entry K V)
    (B : List (ℕ × Entry K V)) (entries' : NodeList (Entry K V)) : Prop :=
  Loop.Returns scan (entries, some x.1)
      (entries', (((scanOrder A x B).find? fun z => !z.2.visited).getD x).1) ∧
    entries'.nodes = entries.nodes.map (clearIds (passedIds (scanOrder A x B))) ∧
    entries'.next = entries.next

omit [DecidableEq K] in
/-- The second time around, all those up to the first entry of the list are cleared. -/
theorem stops_of_reaches (hl : entries.nodes = A ++ x :: B) (hall : ∀ z ∈ A ++ [x], z.2.visited = true)
    {entries₁ : NodeList (Entry K V)} (hl₁ : entries₁.nodes = (A ++ [x]).map cleared ++ B)
    (hnext₁ : entries₁.next = entries.next)
    (hreach : Loop.Reaches scan (entries, some x.1) (entries₁, entries₁.back)) :
    ∃ entries', Stops entries A x B entries' := by
  rcases scan_segment (T := []) (by rw [List.append_nil]) (show entries₁.nodes ≠ [] by simp [hl₁]) with
    ⟨S₁, y, S₂, hS, hy, hS₂, entries', hl', hnext, hret⟩ | ⟨hall', -⟩
  · rw [List.append_nil] at hl'
    rw [hl₁] at hS
    have hdone := hreach.returns hret
    have hvisited : ∀ z ∈ (A ++ [x]).reverse ++ S₂.reverse, z.2.visited = true := by
      rw [List.forall_mem_append]
      exact ⟨fun z hz => hall z (List.mem_reverse.1 hz), fun z hz => hS₂ z (List.mem_reverse.1 hz)⟩
    have hperm : ((A ++ [x]).reverse ++ S₂.reverse).Perm ((A ++ [x]) ++ S₂) :=
      (List.reverse_perm _).append (List.reverse_perm _)
    rcases split_cleared hS hS₂ with ⟨B₁, rfl, rfl⟩ | ⟨rfl, rfl, rfl⟩
    · -- An entry behind the one it started with.
      have horder : scanOrder A x (B₁ ++ y :: S₂) =
          ((A ++ [x]).reverse ++ S₂.reverse) ++ y :: B₁.reverse := by
        rw [scanOrder]
        simp
      have hnodes : entries.nodes = (A ++ [x]) ++ ((B₁ ++ [y]) ++ (S₂ ++ [])) := by
        rw [hl]
        simp
      obtain ⟨hpassed, hfind⟩ := passed_of_append (Q := B₁.reverse) hvisited hy
      refine ⟨entries', ?_, ?_, hnext.trans hnext₁⟩
      · rw [horder, hfind]
        exact hdone
      · rw [horder, hpassed, map_clearIds_parts hnodes hperm, hl']
        simp
    · -- All were visited: the one it started with is not any more.
      have hnodes : entries.nodes = (A ++ [x]) ++ ([] ++ (S₂ ++ [])) := by
        rw [hl]
        simp
      obtain ⟨hpassed, hfind⟩ := passed_of_forall hvisited
      refine ⟨entries', ?_, ?_, hnext.trans hnext₁⟩
      · rw [scanOrder, hfind]
        exact hdone
      · rw [scanOrder, hpassed, map_clearIds_parts hnodes hperm, hl']
        simp
  · have hx := hall' (cleared x) (by simp [hl₁])
    cases hx

omit [DecidableEq K] in
theorem scan_returns (hl : entries.nodes = A ++ x :: B) : ∃ entries', Stops entries A x B entries' := by
  have hl₀ : entries.nodes = (A ++ [x]) ++ B := by rw [hl]; simp
  have hstart : (A ++ [x]).getLast?.map Prod.fst = some x.1 := by simp
  rcases scan_segment hl₀ (by simp) with ⟨S₁, y, S₂, hS, hy, hS₂, entries', hl', hnext, hret⟩ |
    ⟨hall, entries₁, hl₁, hnext₁, hreach⟩
  · -- It stops before it is at the first entry of the list.
    have horder : scanOrder A x B = S₂.reverse ++ y :: (S₁.reverse ++ B.reverse) := by
      rw [scanOrder, hS]
      simp
    have hnodes : entries.nodes = [] ++ ((S₁ ++ [y]) ++ (S₂ ++ B)) := by
      rw [hl₀, hS]
      simp
    obtain ⟨hpassed, hfind⟩ := passed_of_append (Q := S₁.reverse ++ B.reverse)
      (fun z hz => hS₂ z (List.mem_reverse.1 hz)) hy
    refine ⟨entries', ?_, ?_, hnext⟩
    · rw [horder, hfind, ← hstart]
      exact hret
    · rw [horder, hpassed, map_clearIds_parts hnodes (List.reverse_perm S₂), hl']
      simp
  · rw [hstart] at hreach
    exact stops_of_reaches hl hall hl₁ hnext₁ hreach

omit [DecidableEq K] in
/-- Every turn of the loop clears an entry. -/
theorem scan_measure {s s' : NodeList (Entry K V) × Iter} (h : scan s = some (.next s')) :
    s'.1.nodes.countP (fun z => z.2.visited) < s.1.nodes.countP (fun z => z.2.visited) := by
  obtain ⟨entries, _ | old⟩ := s
  · cases h
  rw [scan] at h
  obtain ⟨e, he, h⟩ := Option.bind_eq_some_iff.1 h
  split_ifs at h with hvisited
  · obtain ⟨A, B, hl⟩ := NodeList.exists_of_deref he
    obtain ⟨it, -, hs'⟩ := Option.map_eq_some_iff.1 h
    cases hs'
    dsimp only
    rw [NodeList.nodes_modify hl, hl, List.countP_append, List.countP_append,
      List.countP_cons_of_neg (by simp), List.countP_cons_of_pos (by simpa using hvisited)]
    omega
  · cases h

/-- What `evict` does, with the entry `x` under the hand: one entry goes, those that were passed are cleared,
    and the hand moves in front of where it was. -/
theorem evict_eq {c : Cache K V} (hl : c.entries.nodes = A ++ x :: B)
    (hstart : c.hand = some x.1 ∨ (c.hand = none ∧ B = [])) :
    ∃ C y D c', y = ((scanOrder A x B).find? fun z => !z.2.visited).getD x ∧
      c.entries.nodes = C ++ y :: D ∧ c.evict = some c' ∧ c'.capacity = c.capacity ∧
      (c'.lookup = fun k => if k = y.2.key then none else c.lookup k) ∧
      c'.entries.nodes = (C ++ D).map (clearIds (passedIds (scanOrder A x B))) ∧
      c'.entries.next = c.entries.next ∧ c'.hand = C.getLast?.map Prod.fst := by
  obtain ⟨y, hy⟩ : ∃ y, y = ((scanOrder A x B).find? fun z => !z.2.visited).getD x := ⟨_, rfl⟩
  have hmem : y ∈ c.entries.nodes := by
    have horder : ∀ z, z ∈ scanOrder A x B → z ∈ c.entries.nodes := by
      intro z hz
      rw [hl]
      simpa [scanOrder, or_assoc, or_comm, or_left_comm] using hz
    rcases hfind : (scanOrder A x B).find? fun z => !z.2.visited with _ | z
    · rw [hy, hfind, Option.getD_none, hl]
      simp
    · rw [hy, hfind, Option.getD_some]
      exact horder z (List.mem_of_find?_eq_some hfind)
  obtain ⟨C, D, hsplit⟩ := List.append_of_mem hmem
  obtain ⟨entries', hret, hnodes, hnext⟩ := scan_returns hl
  rw [← hy] at hret
  -- Every turn clears an entry, so there are turns enough for all that were visited.
  have hrun : Loop.run scan (c.size + 1) (c.entries, some x.1) = some (entries', y.1) := by
    refine hret.run_of_measure (fun s => s.1.nodes.countP fun z => z.2.visited)
      (fun _ _ => scan_measure) (Nat.lt_succ_of_le ?_)
    exact List.countP_le_length
  -- From the end, the loop starts at the last entry.
  have hold : (if c.hand = none then c.entries.prev c.hand else some c.hand) = some (some x.1) := by
    rcases hstart with hhand | ⟨hhand, rfl⟩
    · rw [hhand, if_neg (by simp)]
    · rw [hhand, if_pos rfl, NodeList.prev, NodeList.back, hl]
      simp
  rw [hsplit, List.map_append, List.map_cons] at hnodes
  obtain ⟨e, he, hkey⟩ : ∃ e, clearIds (passedIds (scanOrder A x B)) y = (y.1, e) ∧ e.key = y.2.key :=
    ⟨(clearIds _ y).2, Prod.ext (clearIds_eq _ y).1 rfl, (clearIds_eq _ y).2.1⟩
  rw [he] at hnodes
  have hlast : (C.map (clearIds (passedIds (scanOrder A x B)))).getLast?.map Prod.fst =
      C.getLast?.map Prod.fst := by
    rw [List.getLast?_map, Option.map_map]
    exact Option.map_congr fun z _ => (clearIds_eq _ z).1
  refine ⟨C, y, D,
    { c with
      hand := (C.map (clearIds (passedIds (scanOrder A x B)))).getLast?.map Prod.fst
      lookup := fun k => if k = y.2.key then none else c.lookup k
      entries := entries'.erase y.1 }, hy, hsplit, ?_, rfl, rfl, ?_, hnext, hlast⟩
  · rw [evict, hold, Option.bind_some, hrun, Option.bind_some]
    dsimp only
    rw [NodeList.prev_eq hnodes, Option.bind_some, NodeList.deref_eq hnodes, Option.map_some, hkey]
  · rw [NodeList.nodes_erase hnodes, List.map_append]

end Scan

end Cache

end Cppnet.Util
