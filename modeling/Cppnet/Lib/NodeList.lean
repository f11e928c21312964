import Mathlib.Data.List.Nodup

/-!
# Linked lists

A list whose elements stay where they are: each one is in a *node*, with an address no other node has or
had, so that an iterator is the address of a node, or the end. One that was erased leaves its iterators
dangling, and what is done with them is undefined (`none`).

The nodes are in a ring with the end: the one before the first is the end, and the one before the end is
the last (`prev`).
-/

namespace Lib

/-- An iterator: the address of a node, or the end. -/
abbrev Iter := Option ℕ

/-- A list of nodes, with their addresses, and the address of the next new one. -/
structure NodeList (α : Type*) where
  nodes : List (ℕ × α)
  next : ℕ
  nodup : (nodes.map Prod.fst).Nodup
  lt_next : ∀ x ∈ nodes, x.1 < next

namespace NodeList

variable {α : Type*}

/-- No nodes. -/
def empty : NodeList α := ⟨[], 0, List.nodup_nil, by simp⟩

/-- The addresses of the nodes. -/
def ids (l : NodeList α) : List ℕ := l.nodes.map Prod.fst

/-- The element an iterator points to. -/
def deref (l : NodeList α) (i : ℕ) : Option α := (l.nodes.find? fun x => x.1 = i).map Prod.snd

/-- The first node. -/
def front (l : NodeList α) : Iter := l.nodes.head?.map Prod.fst

/-- The last node. -/
def back (l : NodeList α) : Iter := l.nodes.getLast?.map Prod.fst

/-- The node before an iterator, or the end. -/
def prev (l : NodeList α) : Iter → Option Iter
  | none => some l.back
  | some i =>
    if i ∈ l.ids then some ((l.nodes.takeWhile fun x => x.1 ≠ i).getLast?.map Prod.fst) else none

/-- Another element in a node. -/
def modify (l : NodeList α) (i : ℕ) (f : α → α) : NodeList α where
  nodes := l.nodes.map fun x => if x.1 = i then (x.1, f x.2) else x
  next := l.next
  nodup := by
    have hids : (l.nodes.map fun x => if x.1 = i then (x.1, f x.2) else x).map Prod.fst =
        l.nodes.map Prod.fst := by
      rw [List.map_map]
      refine List.map_congr_left fun x _ => ?_
      rw [Function.comp_apply]
      split_ifs <;> rfl
    rw [hids]
    exact l.nodup
  lt_next := by
    intro y hy
    obtain ⟨x, hx, rfl⟩ := List.mem_map.1 hy
    split_ifs <;> exact l.lt_next x hx

/-- Without a node. -/
def erase (l : NodeList α) (i : ℕ) : NodeList α where
  nodes := l.nodes.filter fun x => x.1 ≠ i
  next := l.next
  nodup := l.nodup.sublist (List.filter_sublist.map _)
  lt_next x hx := l.lt_next x (List.mem_of_mem_filter hx)

/-- A new node, in front of the others. -/
def pushFront (l : NodeList α) (a : α) : NodeList α where
  nodes := (l.next, a) :: l.nodes
  next := l.next + 1
  nodup := by
    rw [List.map_cons, List.nodup_cons]
    refine ⟨fun h => ?_, l.nodup⟩
    obtain ⟨x, hx, heq⟩ := List.mem_map.1 h
    exact Nat.lt_irrefl _ (heq ▸ l.lt_next x hx)
  lt_next := by
    rw [List.forall_mem_cons]
    exact ⟨Nat.lt_succ_self _, fun x hx => Nat.lt_succ_of_lt (l.lt_next x hx)⟩

/-- A new node, behind the others. -/
def pushBack (l : NodeList α) (a : α) : NodeList α where
  nodes := l.nodes ++ [(l.next, a)]
  next := l.next + 1
  nodup := by
    rw [List.map_append, List.map_singleton, List.nodup_append]
    refine ⟨l.nodup, List.nodup_singleton _, fun i hi j hj heq => ?_⟩
    obtain ⟨x, hx, rfl⟩ := List.mem_map.1 hi
    rw [List.mem_singleton.1 hj] at heq
    exact Nat.ne_of_lt (l.lt_next x hx) heq
  lt_next := by
    intro x hx
    rcases List.mem_append.1 hx with hx | hx
    · exact Nat.lt_succ_of_lt (l.lt_next x hx)
    · rw [List.mem_singleton.1 hx]
      exact Nat.lt_succ_self _

/-- A node is moved behind the others, with its address. -/
def spliceBack (l : NodeList α) (i : ℕ) : NodeList α :=
  have hperm : (l.nodes.filter (fun x => x.1 ≠ i) ++ l.nodes.filter fun x => !decide (x.1 ≠ i)).Perm l.nodes :=
    List.filter_append_perm _ _
  { nodes := l.nodes.filter (fun x => x.1 ≠ i) ++ l.nodes.filter fun x => !decide (x.1 ≠ i)
    next := l.next
    nodup := (hperm.map Prod.fst).nodup_iff.2 l.nodup
    lt_next := fun x hx => l.lt_next x (hperm.mem_iff.1 hx) }

/-- The nodes from an iterator on. -/
def nodesFrom (l : NodeList α) : Iter → List (ℕ × α)
  | none => []
  | some i => l.nodes.dropWhile fun x => x.1 ≠ i

/-- The iterator behind a node. -/
def nextOf (l : NodeList α) (i : ℕ) : Option Iter :=
  if i ∈ l.ids then some ((l.nodesFrom (some i)).tail.head?.map Prod.fst) else none

/-- Without any nodes. -/
def clear (l : NodeList α) : NodeList α := ⟨[], l.next, List.nodup_nil, by simp⟩

/-! ## At a node -/

theorem exists_of_deref {l : NodeList α} {i : ℕ} {a : α} (h : l.deref i = some a) :
    ∃ A B, l.nodes = A ++ (i, a) :: B := by
  obtain ⟨⟨j, b⟩, hfind, rfl⟩ := Option.map_eq_some_iff.1 h
  obtain rfl : j = i := by simpa using List.find?_some hfind
  exact List.append_of_mem (List.mem_of_find?_eq_some hfind)

theorem eq_of_fst {l : NodeList α} {x y : ℕ × α} (hx : x ∈ l.nodes) (hy : y ∈ l.nodes) (heq : x.1 = y.1) :
    x = y :=
  List.inj_on_of_nodup_map l.nodup hx hy heq

theorem mem_of_mem_append {l : NodeList α} {A B : List (ℕ × α)} {x y : ℕ × α}
    (hl : l.nodes = A ++ y :: B) (hx : x ∈ A ++ B) : x ∈ l.nodes :=
  hl ▸ ((List.sublist_cons_self y B).append_left A).subset hx

theorem eq_or_mem_append {l : NodeList α} {A B : List (ℕ × α)} {x y : ℕ × α}
    (hl : l.nodes = A ++ y :: B) (hx : x ∈ l.nodes) : x = y ∨ x ∈ A ++ B := by
  rw [hl, List.mem_append, List.mem_cons] at hx
  rw [List.mem_append]
  tauto

section At

variable {l : NodeList α} {A B : List (ℕ × α)} {i : ℕ} {a : α}

theorem ne_of_nodes (hl : l.nodes = A ++ (i, a) :: B) : ∀ x ∈ A ++ B, x.1 ≠ i := by
  have hnodup := l.nodup
  rw [hl, List.map_append, List.map_cons, List.nodup_middle, List.nodup_cons, ← List.map_append] at hnodup
  exact fun x hx heq => hnodup.1 (List.mem_map.2 ⟨x, hx, heq⟩)

theorem mem_ids (hl : l.nodes = A ++ (i, a) :: B) : i ∈ l.ids := by
  rw [ids, hl]
  simp

theorem deref_eq (hl : l.nodes = A ++ (i, a) :: B) : l.deref i = some a := by
  have hA : ∀ x ∈ A, ¬(x.1 = i) := fun x hx => ne_of_nodes hl x (List.mem_append_left _ hx)
  have hfind : A.find? (fun x => x.1 = i) = none := by simpa using hA
  rw [deref, hl, List.find?_append, hfind, List.find?_cons_of_pos (by simp)]
  rfl

theorem prev_eq (hl : l.nodes = A ++ (i, a) :: B) :
    l.prev (some i) = some (A.getLast?.map Prod.fst) := by
  have hA : ∀ x ∈ A, (decide (x.1 ≠ i)) = true := fun x hx =>
    decide_eq_true (ne_of_nodes hl x (List.mem_append_left _ hx))
  rw [prev, if_pos (mem_ids hl), hl, List.takeWhile_append_of_pos hA, List.takeWhile_cons_of_neg (by simp),
    List.append_nil]

theorem nodes_modify (hl : l.nodes = A ++ (i, a) :: B) (f : α → α) :
    (l.modify i f).nodes = A ++ (i, f a) :: B := by
  have hother : ∀ C : List (ℕ × α), (∀ x ∈ C, x.1 ≠ i) →
      (C.map fun x => if x.1 = i then (x.1, f x.2) else x) = C := by
    intro C hC
    refine (List.map_congr_left fun x hx => ?_).trans (List.map_id C)
    rw [if_neg (hC x hx), id]
  have hne := ne_of_nodes hl
  change (l.nodes.map fun x => if x.1 = i then (x.1, f x.2) else x) = _
  rw [hl, List.map_append, List.map_cons, if_pos rfl,
    hother A fun x hx => hne x (List.mem_append_left _ hx),
    hother B fun x hx => hne x (List.mem_append_right _ hx)]

/-- The other nodes stay as they are. -/
theorem exists_of_modify (hl : l.nodes = A ++ (i, a) :: B) {j : ℕ} (hij : i ≠ j) (f : α → α) :
    ∃ C D, (l.modify j f).nodes = C ++ (i, a) :: D := by
  let g := fun x : ℕ × α => if x.1 = j then (x.1, f x.2) else x
  refine ⟨A.map g, B.map g, ?_⟩
  change l.nodes.map g = _
  rw [hl, List.map_append, List.map_cons, show g (i, a) = (i, a) from if_neg hij]

theorem nodes_erase (hl : l.nodes = A ++ (i, a) :: B) : (l.erase i).nodes = A ++ B := by
  have hne := ne_of_nodes hl
  change (l.nodes.filter fun x => x.1 ≠ i) = _
  rw [hl, List.filter_append, List.filter_cons_of_neg (by simp), ← List.filter_append,
    List.filter_eq_self]
  exact fun x hx => decide_eq_true (hne x hx)

theorem nodes_spliceBack (hl : l.nodes = A ++ (i, a) :: B) : (l.spliceBack i).nodes = A ++ B ++ [(i, a)] := by
  have hne := ne_of_nodes hl
  have hnone : ∀ C : List (ℕ × α), (∀ x ∈ C, x.1 ≠ i) → (C.filter fun x => !decide (x.1 ≠ i)) = [] := by
    intro C hC
    rw [List.filter_eq_nil_iff]
    exact fun x hx => by simp [hC x hx]
  change (l.nodes.filter (fun x => x.1 ≠ i) ++ l.nodes.filter fun x => !decide (x.1 ≠ i)) = _
  have herase := nodes_erase hl
  change (l.nodes.filter fun x => x.1 ≠ i) = _ at herase
  rw [herase, hl, List.filter_append, List.filter_cons_of_pos (by simp),
    hnone A fun x hx => hne x (List.mem_append_left _ hx),
    hnone B fun x hx => hne x (List.mem_append_right _ hx)]
  rfl

theorem nodesFrom_eq (hl : l.nodes = A ++ (i, a) :: B) : l.nodesFrom (some i) = (i, a) :: B := by
  have hA : ∀ x ∈ A, (decide (x.1 ≠ i)) = true := fun x hx =>
    decide_eq_true (ne_of_nodes hl x (List.mem_append_left _ hx))
  rw [nodesFrom, hl, List.dropWhile_append_of_pos hA, List.dropWhile_cons_of_neg (by simp)]

theorem nextOf_eq (hl : l.nodes = A ++ (i, a) :: B) : l.nextOf i = some (B.head?.map Prod.fst) := by
  rw [nextOf, if_pos (mem_ids hl), nodesFrom_eq hl, List.tail_cons]

end At

/-- Nodes of different parts of the list have different addresses. -/
theorem not_mem_of_perm {l : NodeList α} {P Q : List (ℕ × α)} (h : l.nodes.Perm (P ++ Q)) :
    ∀ x ∈ P, x.1 ∉ Q.map Prod.fst := by
  have hnodup : (P.map Prod.fst ++ Q.map Prod.fst).Nodup := by
    rw [← List.map_append]
    exact ((h.map Prod.fst).nodup_iff).1 l.nodup
  exact fun x hx => List.disjoint_of_nodup_append hnodup (List.mem_map_of_mem hx)

end NodeList

end Lib
