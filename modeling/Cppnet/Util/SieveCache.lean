import Cppnet.Lib.Sieve
import Cppnet.Util.Cache
import Mathlib.Data.List.Find

/-!
# `cache` and the SIEVE algorithm

The list, the table and the hand of a cache stay consistent (`Inv`), and the cache keeps the keys that the
SIEVE algorithm keeps (`Refines`): the queue of the algorithm is the list from the back to the front, and
the marks of the entries say which keys were visited.

* `representation`: the list and the table hold the same keys, with the latest values.
* `sieve_refines`: the cache evicts the keys that the algorithm evicts.
* `purge_iff`: `purge` leaves the hand where it is, at an entry that is not there any more, unless it was
  at the end.
-/

namespace Cppnet.Util.Cache

open Lib

variable {K V : Type*} [DecidableEq K]

/-- Which entry of the list has which key, the newest one first. -/
def index (c : Cache K V) : List (ℕ × K) := c.entries.nodes.map fun x => (x.1, x.2.key)

/-- The keys of the list, the newest one first. -/
def keys (c : Cache K V) : List K := c.index.map Prod.snd

/-- The table gives the entries of the list. -/
def Indexed (c : Cache K V) : Prop := ∀ k i, c.lookup k = some i ↔ (i, k) ∈ c.index

/-- The list, the table and the hand are consistent. -/
structure Inv (c : Cache K V) : Prop where
  keys : c.keys.Nodup
  lookup : ∀ k i, c.lookup k = some i ↔ (i, k) ∈ c.index
  size : c.size ≤ c.capacity
  hand : ∀ i ∈ c.hand, i ∈ c.entries.ids

omit [DecidableEq K] in
theorem map_fst_index (c : Cache K V) : c.index.map Prod.fst = c.entries.ids := by
  rw [index, List.map_map]
  rfl

omit [DecidableEq K] in
theorem length_index (c : Cache K V) : c.index.length = c.size := List.length_map ..

omit [DecidableEq K] in
theorem mem_index {c : Cache K V} {x : ℕ × Entry K V} (hx : x ∈ c.entries.nodes) : (x.1, x.2.key) ∈ c.index :=
  List.mem_map_of_mem hx

omit [DecidableEq K] in
theorem mem_keys {c : Cache K V} {x : ℕ × Entry K V} (hx : x ∈ c.entries.nodes) : x.2.key ∈ c.keys :=
  List.mem_map_of_mem (List.mem_map_of_mem hx)

omit [DecidableEq K] in
theorem keys_eq {c : Cache K V} {C D : List (ℕ × Entry K V)} {y : ℕ × Entry K V}
    (hl : c.entries.nodes = C ++ y :: D) :
    c.keys = C.map (fun x => x.2.key) ++ y.2.key :: D.map fun x => x.2.key := by
  rw [keys, index, hl, List.map_map, List.map_append, List.map_cons]
  rfl

section Lookup

variable {c : Cache K V} {k : K} (h : c.Inv)

include h

omit [DecidableEq K] in
theorem Inv.lookup_eq_none (hk : k ∉ c.keys) : c.lookup k = none := by
  rcases hi : c.lookup k with _ | i
  · rfl
  · exact absurd (List.mem_map.2 ⟨_, (h.lookup k i).1 hi, rfl⟩) hk

omit [DecidableEq K] in
/-- The entry of a key. -/
theorem Inv.exists_entry (hk : k ∈ c.keys) :
    ∃ A i e B, c.entries.nodes = A ++ (i, e) :: B ∧ e.key = k ∧ c.lookup k = some i := by
  obtain ⟨x, hx, rfl⟩ := List.mem_map.1 hk
  have hlookup := (h.lookup x.2 x.1).2 hx
  obtain ⟨⟨i, e⟩, he, rfl⟩ := List.mem_map.1 hx
  obtain ⟨A, B, hl⟩ := List.append_of_mem he
  exact ⟨A, i, e, B, hl, rfl, hlookup⟩

omit [DecidableEq K] in
/-- Entries are told apart by their keys. -/
theorem Inv.eq_of_key {x y : ℕ × Entry K V} (hx : x ∈ c.entries.nodes) (hy : y ∈ c.entries.nodes)
    (heq : x.2.key = y.2.key) : x = y := by
  have hkeys : (c.entries.nodes.map fun x => x.2.key).Nodup := by
    have hnodup := h.keys
    rwa [Cache.keys, index, List.map_map] at hnodup
  exact List.inj_on_of_nodup_map hkeys hx hy heq

omit [DecidableEq K] in
/-- No other entry has the key of an entry. -/
theorem Inv.key_not_mem {C D : List (ℕ × Entry K V)} {y : ℕ × Entry K V}
    (hl : c.entries.nodes = C ++ y :: D) :
    y.2.key ∉ C.map (fun x => x.2.key) ++ D.map fun x => x.2.key := by
  have hnodup := h.keys
  rw [keys_eq hl, List.nodup_middle, List.nodup_cons] at hnodup
  exact hnodup.1

omit [DecidableEq K] in
theorem Inv.key_ne {C D : List (ℕ × Entry K V)} {y : ℕ × Entry K V} (hl : c.entries.nodes = C ++ y :: D) :
    ∀ x ∈ C ++ D, x.2.key ≠ y.2.key := by
  intro x hx heq
  refine h.key_not_mem hl ?_
  rw [← heq, ← List.map_append]
  exact List.mem_map_of_mem hx

end Lookup

section Remove

variable {c c' : Cache K V} {C D : List (ℕ × Entry K V)} {y : ℕ × Entry K V}
  {f : ℕ × Entry K V → ℕ × Entry K V} (hf : ∀ x, (f x).1 = x.1 ∧ (f x).2.key = x.2.key)
  (hl' : c'.entries.nodes = (C ++ D).map f)

include hf hl'

omit [DecidableEq K] in
theorem index_remove : c'.index = (C ++ D).map fun x => (x.1, x.2.key) := by
  rw [index, hl', List.map_map]
  refine List.map_congr_left fun x _ => ?_
  rw [Function.comp_apply, (hf x).1, (hf x).2]

omit [DecidableEq K] in
theorem keys_remove : c'.keys = (C ++ D).map fun x => x.2.key := by
  rw [keys, index_remove hf hl', List.map_map]
  rfl

theorem Indexed.remove (h : c.Indexed) (hl : c.entries.nodes = C ++ y :: D)
    (hlookup : c'.lookup = fun k => if k = y.2.key then none else c.lookup k) : c'.Indexed := by
  have hindex := index_remove hf hl'
  have hsub : ∀ x ∈ C ++ D, (x.1, x.2.key) ∈ c.index := fun x hx =>
    mem_index (NodeList.mem_of_mem_append hl hx)
  intro k i
  rw [hlookup, hindex]
  dsimp only
  split_ifs with hk
  · -- No other entry has the key of the one that goes.
    refine iff_of_false (by simp) fun hi => ?_
    obtain ⟨x, hx, heq⟩ := List.mem_map.1 hi
    cases heq
    have hy := (h y.2.key y.1).2 (mem_index (hl ▸ List.mem_append_right _ List.mem_cons_self))
    have hxy := (h y.2.key x.1).2 (hk ▸ hsub x hx)
    exact NodeList.ne_of_nodes hl x hx (Option.some.inj (hxy.symm.trans hy))
  · rw [h k i]
    constructor
    · intro hi
      obtain ⟨x, hx, heq⟩ := List.mem_map.1 hi
      cases heq
      rcases NodeList.eq_or_mem_append hl hx with rfl | hx
      · exact absurd rfl hk
      · exact List.mem_map_of_mem (f := fun x => (x.1, x.2.key)) hx
    · intro hi
      obtain ⟨x, hx, heq⟩ := List.mem_map.1 hi
      cases heq
      exact hsub x hx

/-- An entry goes, from the list and from the table. -/
theorem Inv.remove (h : c.Inv) (hl : c.entries.nodes = C ++ y :: D)
    (hlookup : c'.lookup = fun k => if k = y.2.key then none else c.lookup k)
    (hcapacity : c'.capacity = c.capacity) (hhand : c'.hand = none ∨ ∃ x ∈ C ++ D, c'.hand = some x.1) :
    c'.Inv := by
  have hindex := index_remove hf hl'
  have hkeys := keys_remove hf hl'
  have hnodup := h.keys
  rw [keys_eq hl, List.nodup_middle, List.nodup_cons, ← List.map_append] at hnodup
  exact
    { keys := hkeys ▸ hnodup.2
      lookup := Indexed.remove hf hl' h.lookup hl hlookup
      size := by
        have hsize := h.size
        rw [hcapacity, ← length_index, hindex]
        rw [Cache.size, hl] at hsize
        simp only [List.length_map, List.length_append, List.length_cons] at hsize ⊢
        omega
      hand := by
        intro i hi
        rw [← map_fst_index, hindex, List.map_map]
        rcases hhand with hnone | ⟨x, hx, hsome⟩
        · rw [hnone] at hi
          cases hi
        · rw [hsome] at hi
          cases hi
          exact List.mem_map_of_mem hx }

end Remove

/-- A new entry in front, of a key that is not there. -/
theorem Indexed.push {c : Cache K V} (h : c.Indexed) {key : K} (hkey : c.lookup key = none) (val : V) :
    Indexed { c with
      entries := c.entries.pushFront { key, val }
      lookup := fun k => if k = key then some c.entries.next else c.lookup k } := by
  intro k i
  change (if k = key then some c.entries.next else c.lookup k) = some i ↔
    (i, k) ∈ (c.entries.next, key) :: c.index
  rw [List.mem_cons, Prod.mk.injEq]
  split_ifs with heq
  · have hnot : (i, k) ∉ c.index := by
      rw [← h, heq, hkey]
      simp
    simp [heq, heq ▸ hnot, eq_comm]
  · rw [h]
    simp [heq]

omit [DecidableEq K] in
/-- `get` of the key of an entry. -/
theorem get_eq {c : Cache K V} {A B : List (ℕ × Entry K V)} {i : ℕ} {e : Entry K V}
    (hl : c.entries.nodes = A ++ (i, e) :: B) (hlookup : c.lookup e.key = some i) :
    c.get e.key =
      some (some e.val, { c with entries := c.entries.modify i fun e => { e with visited := true } }) := by
  rw [Cache.get, hlookup]
  dsimp only
  rw [NodeList.deref_eq hl, Option.map_some]

/-- The cache holds the keys the algorithm holds, with the hand where it is. -/
structure Refines (c : Cache K V) (s : Sieve K) : Prop extends Inv c where
  pos : 1 ≤ c.capacity
  queue : s.queue = c.keys.reverse
  visited : ∀ x ∈ c.entries.nodes, x.2.visited = s.visited x.2.key
  hand_eq : (c.hand = none ∧ s.hand = none) ∨ ∃ x ∈ c.index, c.hand = some x.1 ∧ s.hand = some x.2

theorem refines_empty {capacity : ℕ} (hpos : 1 ≤ capacity) :
    Refines (empty capacity : Cache K V) {} where
  keys := List.nodup_nil
  lookup := by simp [empty, NodeList.empty, index]
  size := Nat.zero_le _
  hand := by simp [empty]
  pos := hpos
  queue := rfl
  visited := by simp [empty, NodeList.empty]
  hand_eq := .inl ⟨rfl, rfl⟩

/-- `purge`, while the hand is at the end. -/
theorem Refines.purge {c : Cache K V} {s : Sieve K} (h : c.Refines s) (hhand : c.hand = none) :
    c.purge.Refines {} where
  keys := List.nodup_nil
  lookup := by simp [Cache.purge, NodeList.clear, index]
  size := Nat.zero_le _
  hand := by simp [Cache.purge, hhand]
  pos := h.pos
  queue := rfl
  visited := by simp [Cache.purge, NodeList.clear]
  hand_eq := .inl ⟨hhand, rfl⟩

section Effects

variable {c : Cache K V} {s : Sieve K} (h : c.Refines s)

include h

/-- An entry is used. -/
theorem Refines.hit {A B : List (ℕ × Entry K V)} {i : ℕ} {e e' : Entry K V}
    (hl : c.entries.nodes = A ++ (i, e) :: B) (hkey : e'.key = e.key) (hvisited : e'.visited = true)
    {entries : NodeList (Entry K V)} (hl' : entries.nodes = A ++ (i, e') :: B) :
    Refines { c with entries } (s.hit e.key) := by
  have hindex : index { c with entries } = c.index := by
    rw [index, index, hl, hl', List.map_append, List.map_cons, hkey, List.map_append, List.map_cons]
  have hne := h.key_ne hl
  exact
    { keys := by rw [keys, hindex]; exact h.keys
      lookup := by rw [hindex]; exact h.lookup
      size := by rw [← length_index, hindex, length_index]; exact h.size
      hand := by rw [← map_fst_index, hindex, map_fst_index]; exact h.hand
      pos := h.pos
      queue := by rw [keys, hindex]; exact h.queue
      visited := by
        intro x hx
        rw [Sieve.visited, Sieve.hit, Sieve.latestHit_cons, Sieve.Event.key]
        rcases NodeList.eq_or_mem_append hl' hx with rfl | hx
        · rw [if_pos hkey.symm, hvisited]
          simp [hkey]
        · rw [if_neg (hne x hx).symm]
          exact h.visited x (NodeList.mem_of_mem_append hl hx)
      hand_eq := by rw [hindex]; exact h.hand_eq }

/-- A new entry, in front of the others. -/
theorem Refines.push {k : K} (hk : k ∉ c.keys) (hlt : c.size < c.capacity) (val : V) :
    Refines
      { c with
        entries := c.entries.pushFront { key := k, val }
        lookup := fun k' => if k' = k then some c.entries.next else c.lookup k' } (s.insert k) where
  keys := List.nodup_cons.2 ⟨hk, h.keys⟩
  lookup := Indexed.push h.lookup (h.lookup_eq_none hk) val
  size := hlt
  hand := fun i hi => List.mem_cons_of_mem _ (h.hand i hi)
  pos := h.pos
  queue := by
    change s.queue ++ [k] = (k :: c.keys).reverse
    rw [List.reverse_cons, h.queue]
  visited := by
    intro x hx
    rw [Sieve.visited, Sieve.insert, Sieve.latestHit_cons, Sieve.Event.key]
    rcases List.mem_cons.1 (show x ∈ (c.entries.next, _) :: c.entries.nodes from hx) with rfl | hmem
    · rw [if_pos rfl]
      simp
    · have hne : k ≠ x.2.key := by
        rintro rfl
        exact hk (mem_keys hmem)
      rw [if_neg hne]
      exact h.visited x hmem
  hand_eq := by
    rcases h.hand_eq with hnone | ⟨x, hx, heq⟩
    · exact .inl hnone
    · exact .inr ⟨x, List.mem_cons_of_mem _ hx, heq⟩

/-- The queue around an entry: those behind it are older. -/
theorem Refines.queue_eq {C D : List (ℕ × Entry K V)} {y : ℕ × Entry K V}
    (hl : c.entries.nodes = C ++ y :: D) :
    s.queue = D.reverse.map (fun x => x.2.key) ++ y.2.key :: C.reverse.map (fun x => x.2.key) ∧
      y.2.key ∉ D.reverse.map fun x => x.2.key := by
  constructor
  · rw [h.queue, keys_eq hl]
    simp
  · have hkey := h.key_not_mem hl
    rw [List.mem_append, not_or] at hkey
    simpa using hkey.2

/-- An entry goes, and others are cleared or not. -/
theorem Refines.remove {C D : List (ℕ × Entry K V)} {y : ℕ × Entry K V}
    (hl : c.entries.nodes = C ++ y :: D) {c' : Cache K V} {s' : Sieve K} {f : ℕ × Entry K V → ℕ × Entry K V}
    (hf : ∀ x, (f x).1 = x.1 ∧ (f x).2.key = x.2.key) (hl' : c'.entries.nodes = (C ++ D).map f)
    (hlookup : c'.lookup = fun k => if k = y.2.key then none else c.lookup k)
    (hcapacity : c'.capacity = c.capacity) (hqueue : s'.queue = s.queue.erase y.2.key)
    (hvisited : ∀ x ∈ C ++ D, (f x).2.visited = s'.visited x.2.key)
    (hhand : (c'.hand = none ∧ s'.hand = none) ∨
      ∃ x ∈ C ++ D, c'.hand = some x.1 ∧ s'.hand = some x.2.key) : Refines c' s' := by
  have hindex := index_remove hf hl'
  exact
    { toInv := h.toInv.remove hf hl' hl hlookup hcapacity
        (hhand.imp And.left fun ⟨x, hx, hsome, _⟩ => ⟨x, hx, hsome⟩)
      pos := hcapacity ▸ h.pos
      queue := by
        rw [hqueue, keys_remove hf hl', Sieve.erase_queue (h.queue_eq hl).1 (h.queue_eq hl).2, List.map_append,
          List.reverse_append, List.map_reverse, List.map_reverse]
      visited := by
        intro x hx
        rw [hl'] at hx
        obtain ⟨z, hz, rfl⟩ := List.mem_map.1 hx
        rw [(hf z).2]
        exact hvisited z hz
      hand_eq := by
        rcases hhand with hnone | ⟨x, hx, hsome⟩
        · exact .inl hnone
        · exact .inr ⟨(x.1, x.2.key), hindex ▸ List.mem_map_of_mem hx, hsome⟩ }

/-- The entry just newer than another is the one in front of it. -/
theorem Refines.hand_newer {C D : List (ℕ × Entry K V)} {y : ℕ × Entry K V}
    (hl : c.entries.nodes = C ++ y :: D) :
    (C.getLast?.map Prod.fst = none ∧ s.newer y.2.key = none) ∨
      ∃ x ∈ C ++ D, C.getLast?.map Prod.fst = some x.1 ∧ s.newer y.2.key = some x.2.key := by
  rw [Sieve.newer_eq (h.queue_eq hl).1 (h.queue_eq hl).2]
  rcases C.eq_nil_or_concat with rfl | ⟨C, x, rfl⟩
  · exact .inl ⟨rfl, rfl⟩
  · exact .inr ⟨x, by simp, by simp, by simp⟩

/-- The hand is at the end, or at the entry of the key where the hand of the algorithm is. -/
theorem Refines.hand_cases : (c.hand = none ∧ s.hand = none) ∨
    ∃ x ∈ c.entries.nodes, c.hand = some x.1 ∧ s.hand = some x.2.key := by
  rcases h.hand_eq with hnone | ⟨x, hx, heq⟩
  · exact .inl hnone
  · obtain ⟨y, hy, rfl⟩ := List.mem_map.1 hx
    exact .inr ⟨y, hy, heq⟩

/-- The hand, after an entry is taken out. -/
theorem Refines.hand_remove {A B : List (ℕ × Entry K V)} {x : ℕ × Entry K V}
    (hl : c.entries.nodes = A ++ x :: B) :
    ∃ hand, (if c.hand = some x.1 then c.entries.prev c.hand else some c.hand) = some hand ∧
      ((hand = none ∧ (s.remove x.2.key).hand = none) ∨
        ∃ y ∈ A ++ B, hand = some y.1 ∧ (s.remove x.2.key).hand = some y.2.key) := by
  have hx : x ∈ c.entries.nodes := hl ▸ List.mem_append_right _ List.mem_cons_self
  rcases h.hand_cases with ⟨hnone, hnone'⟩ | ⟨y, hy, hsome, hsome'⟩
  · refine ⟨none, by simp [hnone], .inl ⟨rfl, ?_⟩⟩
    rw [Sieve.remove, hnone', if_neg (by simp)]
  · by_cases heq : y = x
    · -- The hand is at the entry that goes, and moves to the one in front of it.
      subst heq
      refine ⟨A.getLast?.map Prod.fst, ?_, ?_⟩
      · rw [if_pos hsome, hsome, NodeList.prev_eq hl]
      · rw [Sieve.remove, if_pos hsome']
        exact h.hand_newer hl
    · -- It is at another entry, and stays there.
      have hmem := (NodeList.eq_or_mem_append hl hy).resolve_left heq
      have hid : y.1 ≠ x.1 := fun hid => heq (NodeList.eq_of_fst hy hx hid)
      have hkey : y.2.key ≠ x.2.key := fun hkey => heq (h.eq_of_key hy hx hkey)
      refine ⟨c.hand, if_neg (by simpa [hsome] using hid), .inr ⟨y, hmem, hsome, ?_⟩⟩
      rw [Sieve.remove, if_neg (by simpa [hsome'] using hkey)]
      exact hsome'

/-- `erase` of a key that is there. -/
theorem Refines.erase {k : K} (hk : k ∈ c.keys) :
    ∃ c', c.erase k = some (true, c') ∧ c'.Refines (s.remove k) ∧ c'.capacity = c.capacity ∧
      ∀ x ∈ c'.entries.nodes, x ∈ c.entries.nodes := by
  obtain ⟨A, i, e, B, hl, rfl, hlookup⟩ := h.exists_entry hk
  obtain ⟨hand, hhand, hhand'⟩ := h.hand_remove hl
  refine ⟨{ c with
    hand
    entries := c.entries.erase i
    lookup := fun k => if k = e.key then none else c.lookup k }, ?_, ?_, rfl, ?_⟩
  · rw [Cache.erase, hlookup]
    dsimp only
    rw [hhand, Option.bind_some, NodeList.deref_eq hl, Option.map_some]
  · refine h.remove (f := id) hl (fun x => ⟨rfl, rfl⟩) ?_ rfl rfl rfl ?_ hhand'
    · rw [List.map_id]
      exact NodeList.nodes_erase hl
    · exact fun x hx => h.visited x (NodeList.mem_of_mem_append hl hx)
  · exact fun x hx => List.mem_of_mem_filter hx

/-- Where `evict` starts, and the order in which it looks at the keys. -/
theorem Refines.start (hne : c.entries.nodes ≠ []) :
    ∃ A x B, c.entries.nodes = A ++ x :: B ∧ (c.hand = some x.1 ∨ (c.hand = none ∧ B = [])) ∧
      s.order = (scanOrder A x B).map fun z => z.2.key := by
  rcases h.hand_cases with ⟨hnone, hnone'⟩ | ⟨x, hx, hsome, hsome'⟩
  · -- The hand is at the end, and the last entry is the oldest key.
    obtain ⟨A, x, hl⟩ := c.entries.nodes.eq_nil_or_concat.resolve_left hne
    rw [List.concat_eq_append] at hl
    refine ⟨A, x, [], hl, .inr ⟨hnone, rfl⟩, ?_⟩
    rw [Sieve.order, hnone']
    dsimp only
    rw [(h.queue_eq hl).1]
    simp [scanOrder]
  · obtain ⟨A, B, hl⟩ := List.append_of_mem hx
    refine ⟨A, x, B, hl, .inl hsome, ?_⟩
    rw [Sieve.order_eq (h.queue_eq hl).1 (h.queue_eq hl).2 hsome']
    simp [scanOrder]

/-- The key the algorithm stops at. -/
theorem Refines.victim_eq {x : ℕ × Entry K V} {order : List (ℕ × Entry K V)}
    (hmem : ∀ z ∈ order, z ∈ c.entries.nodes) (horder : s.order = order.map fun z => z.2.key)
    (hhead : order.head? = some x) :
    s.victim = some ((order.find? fun z => !z.2.visited).getD x).2.key := by
  have hfind : (order.find? fun z => !s.visited z.2.key) = order.find? fun z => !z.2.visited :=
    List.find?_congr fun z hz => by rw [h.visited z (hmem z hz)]
  rw [Sieve.victim, horder, List.find?_map, List.head?_map, hhead]
  rw [show (fun k => !s.visited k) ∘ (fun z : ℕ × Entry K V => z.2.key) = fun z => !s.visited z.2.key from rfl,
    hfind]
  cases List.find? (fun z => !z.2.visited) order <;> rfl

/-- The entries that are passed are those of the keys the algorithm passes. -/
theorem Refines.mem_passedIds {order : List (ℕ × Entry K V)} (hmem : ∀ z ∈ order, z ∈ c.entries.nodes)
    (horder : s.order = order.map fun z => z.2.key) {z : ℕ × Entry K V} (hz : z ∈ c.entries.nodes) :
    z.1 ∈ passedIds order ↔ z.2.key ∈ s.passed := by
  have hpassed : s.passed = (order.takeWhile fun z => z.2.visited).map fun z => z.2.key := by
    rw [Sieve.passed, horder, List.takeWhile_map]
    congr 1
    exact Sieve.takeWhile_congr fun z hz => (h.visited z (hmem z hz)).symm
  have hsub : ∀ w ∈ order.takeWhile fun z => z.2.visited, w ∈ c.entries.nodes := fun w hw =>
    hmem w (List.takeWhile_subset _ hw)
  rw [passedIds, hpassed, List.mem_map, List.mem_map]
  constructor
  · rintro ⟨w, hw, heq⟩
    exact ⟨w, hw, by rw [NodeList.eq_of_fst (hsub w hw) hz heq]⟩
  · rintro ⟨w, hw, heq⟩
    exact ⟨w, hw, by rw [h.eq_of_key (hsub w hw) hz heq]⟩

/-- `evict` takes out the key that the algorithm takes out. -/
theorem Refines.evict (hne : c.entries.nodes ≠ []) :
    ∃ c', c.evict = some c' ∧ c'.Refines s.evict ∧ c'.capacity = c.capacity ∧ c'.size + 1 = c.size ∧
      (∃ k ∈ c.keys, s.victim = some k ∧ c'.keys = c.keys.erase k) ∧
      ∀ x ∈ c'.entries.nodes, ∃ y ∈ c.entries.nodes, y.2.key = x.2.key ∧ y.2.val = x.2.val := by
  obtain ⟨A, x, B, hl, hstart, horder⟩ := h.start hne
  have hmem : ∀ z ∈ scanOrder A x B, z ∈ c.entries.nodes := by
    intro z hz
    rw [hl]
    simpa [scanOrder, or_assoc, or_comm, or_left_comm] using hz
  have hhead : (scanOrder A x B).head? = some x := by simp [scanOrder]
  have hvictim := h.victim_eq hmem horder hhead
  obtain ⟨C, y, D, c', hy, hsplit, hevict, hcapacity, hlookup, hnodes, -, hhand⟩ := evict_eq hl hstart
  rw [← hy] at hvictim
  have hs : s.evict = ⟨s.queue.erase y.2.key, s.newer y.2.key, (s.passed.map .passed).reverse ++ s.log⟩ := by
    rw [Sieve.evict, hvictim]
  -- Clearing an entry changes neither its place nor its key.
  have hsame : ∀ z : ℕ × Entry K V, (clearIds (passedIds (scanOrder A x B)) z).1 = z.1 ∧
      (clearIds (passedIds (scanOrder A x B)) z).2.key = z.2.key :=
    fun z => ⟨(clearIds_eq _ z).1, (clearIds_eq _ z).2.1⟩
  have hrefines : c'.Refines s.evict := by
    refine h.remove hsplit hsame hnodes hlookup hcapacity (by rw [hs]) ?_ ?_
    · intro z hz
      have hz := NodeList.mem_of_mem_append hsplit hz
      rw [hs, Sieve.visited, Sieve.latestHit_append_passed, clearIds, apply_ite Prod.snd,
        apply_ite Entry.visited]
      exact if_congr (h.mem_passedIds hmem horder hz) rfl (h.visited z hz)
    · rw [hhand, hs]
      exact h.hand_newer hsplit
  refine ⟨c', hevict, hrefines, hcapacity, ?_, ⟨y.2.key, ?_, hvictim, ?_⟩, ?_⟩
  · rw [size, size, hnodes, hsplit]
    simp only [List.length_map, List.length_append, List.length_cons]
    omega
  · rw [keys_eq hsplit]
    exact List.mem_append_right _ List.mem_cons_self
  · have hkey := h.key_not_mem hsplit
    rw [List.mem_append, not_or] at hkey
    rw [keys_remove hsame hnodes, keys_eq hsplit, List.map_append, List.erase_append_right _ hkey.1,
      List.erase_cons_head]
  · intro z hz
    rw [hnodes] at hz
    obtain ⟨w, hw, rfl⟩ := List.mem_map.1 hz
    exact ⟨w, NodeList.mem_of_mem_append hsplit hw, (clearIds_eq _ w).2.1.symm, (clearIds_eq _ w).2.2.symm⟩

end Effects

/-! ## Runs -/

/-- What the algorithm does at an operation. -/
def sieveStep (capacity : ℕ) (s : Sieve K) : Op K V → Sieve K
  | .set key _ => s.set capacity key
  | .get key => if key ∈ s.queue then s.hit key else s
  | .erase key => if key ∈ s.queue then s.remove key else s

/-- The values of the keys, after an operation. -/
def store (values : K → Option V) : Op K V → K → Option V
  | .set key val => fun k => if k = key then some val else values k
  | .get _ => values
  | .erase _ => values

/-- The value of the latest `set` of a key. -/
def latest (ops : List (Op K V)) : K → Option V := ops.foldl store fun _ => none

/-- The entries have these values. -/
def Stores (c : Cache K V) (values : K → Option V) : Prop :=
  ∀ x ∈ c.entries.nodes, values x.2.key = some x.2.val

section Steps

variable {c : Cache K V} {s : Sieve K} {values : K → Option V} (h : c.Refines s)

include h

theorem Refines.mem_queue {k : K} : k ∈ s.queue ↔ k ∈ c.keys := by
  rw [h.queue, List.mem_reverse]

theorem Refines.length_queue : s.queue.length = c.size := by
  rw [h.queue, List.length_reverse, keys, List.length_map, length_index]

theorem Refines.set_eq_evict {k : K} (hk : k ∉ c.keys) (hfull : c.size = c.capacity) :
    s.set c.capacity k = s.evict.insert k := by
  rw [Sieve.set, if_neg (h.mem_queue.not.2 hk), h.length_queue, if_neg (by omega)]

/-- `set` of a key that is there. -/
theorem Refines.set_mem {k : K} (hk : k ∈ c.keys) (hvalues : c.Stores values) (val : V) :
    ∃ c', c.set k val = some c' ∧ c'.Refines (s.set c.capacity k) ∧ c'.capacity = c.capacity ∧
      c'.keys = c.keys ∧ c'.Stores (store values (.set k val)) := by
  have hs : s.set c.capacity k = s.hit k := if_pos (h.mem_queue.2 hk)
  obtain ⟨A, i, e, B, hl, rfl, hlookup⟩ := h.exists_entry hk
  have hl' := NodeList.nodes_modify hl fun e => { e with val, visited := true }
  refine ⟨{ c with entries := c.entries.modify i fun e => { e with val, visited := true } }, ?_, ?_, rfl, ?_, ?_⟩
  · rw [Cache.set, hlookup]
    dsimp only
    rw [NodeList.deref_eq hl, Option.map_some]
  · rw [hs]
    refine h.hit hl ?_ ?_ hl' <;> rfl
  · rw [keys_eq hl', keys_eq hl]
  · intro x hx
    rcases NodeList.eq_or_mem_append hl' hx with rfl | hx
    · exact if_pos rfl
    · exact (if_neg (h.key_ne hl x hx)).trans (hvalues x (NodeList.mem_of_mem_append hl hx))

omit h in
/-- The values, with a new entry. -/
theorem Stores.push (hvalues : c.Stores values) {k : K} (hk : k ∉ c.keys) (val : V) {c' : Cache K V}
    {i : ℕ} (hnodes : c'.entries.nodes = (i, { key := k, val }) :: c.entries.nodes) :
    c'.Stores (store values (.set k val)) := by
  intro x hx
  rw [hnodes] at hx
  rcases List.mem_cons.1 hx with rfl | hx
  · exact if_pos rfl
  · have hne : x.2.key ≠ k := fun heq => hk (heq ▸ mem_keys hx)
    exact (if_neg hne).trans (hvalues x hx)

/-- `set` of a new key, where there is room for it. -/
theorem Refines.set_room {k : K} (hk : k ∉ c.keys) (hlt : c.size < c.capacity) (hvalues : c.Stores values)
    (val : V) :
    ∃ c', c.set k val = some c' ∧ c'.Refines (s.set c.capacity k) ∧ c'.capacity = c.capacity ∧
      c'.keys = k :: c.keys ∧ c'.Stores (store values (.set k val)) := by
  have hs : s.set c.capacity k = s.insert k := by
    rw [Sieve.set, if_neg (h.mem_queue.not.2 hk), h.length_queue, if_pos hlt]
  refine ⟨{ c with
    entries := c.entries.pushFront { key := k, val }
    lookup := fun k' => if k' = k then some c.entries.next else c.lookup k' }, ?_, ?_, rfl, rfl,
    hvalues.push hk val rfl⟩
  · rw [Cache.set, h.lookup_eq_none hk]
    dsimp only
    rw [if_neg (by omega), Option.map_some]
  · rw [hs]
    exact h.push hk hlt val

/-- `set` of a new key on a full cache. -/
theorem Refines.set_full {k : K} (hk : k ∉ c.keys) (hfull : c.size = c.capacity) (hvalues : c.Stores values)
    (val : V) :
    ∃ c', c.set k val = some c' ∧ c'.Refines (s.set c.capacity k) ∧ c'.capacity = c.capacity ∧
      (∃ y ∈ c.keys, s.victim = some y ∧ c'.keys = k :: c.keys.erase y) ∧
      c'.Stores (store values (.set k val)) := by
  have hne : c.entries.nodes ≠ [] := by
    have hpos := h.pos
    rw [← List.length_pos_iff]
    rw [size] at hfull
    omega
  obtain ⟨c₁, hevict, hrefines, hcapacity, hsize, ⟨y, hy, hvictim, hkeys⟩, hnodes⟩ := h.evict hne
  -- Taking out a key neither brings in another one nor changes a value.
  have hk₁ : k ∉ c₁.keys := by
    rw [hkeys]
    exact fun hmem => hk (List.mem_of_mem_erase hmem)
  have hvalues₁ : c₁.Stores values := by
    intro x hx
    obtain ⟨z, hz, hkey, hval⟩ := hnodes x hx
    rw [← hkey, ← hval]
    exact hvalues z hz
  refine ⟨{ c₁ with
    entries := c₁.entries.pushFront { key := k, val }
    lookup := fun k' => if k' = k then some c₁.entries.next else c₁.lookup k' }, ?_, ?_, hcapacity,
    ⟨y, hy, hvictim, ?_⟩, hvalues₁.push hk₁ val rfl⟩
  · rw [Cache.set, h.lookup_eq_none hk]
    dsimp only
    rw [if_pos (by omega), hevict, Option.map_some]
  · rw [h.set_eq_evict hk hfull]
    exact hrefines.push hk₁ (by omega) val
  · rw [← hkeys]
    rfl

/-- `get` of a key that is there. -/
theorem Refines.get_mem {k : K} (hk : k ∈ c.keys) (hvalues : c.Stores values) :
    ∃ v c', values k = some v ∧ c.get k = some (some v, c') ∧ c'.Refines (s.hit k) ∧
      c'.capacity = c.capacity ∧ c'.Stores values := by
  obtain ⟨A, i, e, B, hl, rfl, hlookup⟩ := h.exists_entry hk
  have hl' := NodeList.nodes_modify hl fun e => { e with visited := true }
  have hval : values e.key = some e.val := hvalues (i, e) (hl ▸ List.mem_append_right _ List.mem_cons_self)
  refine ⟨e.val, { c with entries := c.entries.modify i fun e => { e with visited := true } }, hval,
    get_eq hl hlookup, ?_, rfl, ?_⟩
  · refine h.hit hl ?_ ?_ hl' <;> rfl
  · intro x hx
    rcases NodeList.eq_or_mem_append hl' hx with rfl | hx
    · exact hval
    · exact hvalues x (NodeList.mem_of_mem_append hl hx)

theorem Refines.get_not_mem {k : K} (hk : k ∉ c.keys) : c.get k = some (none, c) := by
  rw [Cache.get, h.lookup_eq_none hk]

/-- An operation does what it does on the algorithm, and on the values. -/
theorem Refines.step (hvalues : c.Stores values) (op : Op K V) :
    ∃ o c', c.step op = some (o, c') ∧ c'.Refines (sieveStep c.capacity s op) ∧ c'.capacity = c.capacity ∧
      c'.Stores (store values op) := by
  cases op with
  | set k val =>
    obtain ⟨c', hset, hrefines, hcapacity, hvalues'⟩ : ∃ c', c.set k val = some c' ∧
        c'.Refines (s.set c.capacity k) ∧ c'.capacity = c.capacity ∧ c'.Stores (store values (.set k val)) := by
      by_cases hk : k ∈ c.keys
      · obtain ⟨c', hset, hrefines, hcapacity, -, hvalues'⟩ := h.set_mem hk hvalues val
        exact ⟨c', hset, hrefines, hcapacity, hvalues'⟩
      · rcases h.size.lt_or_eq with hlt | hfull
        · obtain ⟨c', hset, hrefines, hcapacity, -, hvalues'⟩ := h.set_room hk hlt hvalues val
          exact ⟨c', hset, hrefines, hcapacity, hvalues'⟩
        · obtain ⟨c', hset, hrefines, hcapacity, -, hvalues'⟩ := h.set_full hk hfull hvalues val
          exact ⟨c', hset, hrefines, hcapacity, hvalues'⟩
    exact ⟨none, c', by rw [Cache.step, hset]; rfl, hrefines, hcapacity, hvalues'⟩
  | get k =>
    rw [sieveStep]
    by_cases hk : k ∈ c.keys
    · obtain ⟨v, c', -, hget, hrefines, hcapacity, hvalues'⟩ := h.get_mem hk hvalues
      exact ⟨some v, c', hget, by rwa [if_pos (h.mem_queue.2 hk)], hcapacity, hvalues'⟩
    · exact ⟨none, c, h.get_not_mem hk, by rwa [if_neg (h.mem_queue.not.2 hk)], rfl, hvalues⟩
  | erase k =>
    rw [sieveStep]
    by_cases hk : k ∈ c.keys
    · obtain ⟨c', herase, hrefines, hcapacity, hnodes⟩ := h.erase hk
      refine ⟨none, c', by rw [Cache.step, herase]; rfl, by rwa [if_pos (h.mem_queue.2 hk)], hcapacity, ?_⟩
      exact fun x hx => hvalues x (hnodes x hx)
    · refine ⟨none, c, ?_, by rwa [if_neg (h.mem_queue.not.2 hk)], rfl, hvalues⟩
      rw [Cache.step, Cache.erase, h.lookup_eq_none hk]
      rfl

/-- So does a run of them. -/
theorem Refines.run (hvalues : c.Stores values) (ops : List (Op K V)) :
    ∃ os c', exec Cache.step c ops = some (os, c') ∧ c'.Refines (ops.foldl (sieveStep c.capacity) s) ∧
      c'.capacity = c.capacity ∧ c'.Stores (ops.foldl store values) := by
  induction ops generalizing c s values with
  | nil => exact ⟨[], c, rfl, h, rfl, hvalues⟩
  | cons op ops ih =>
    obtain ⟨o, c₁, hstep, hrefines, hcapacity, hvalues₁⟩ := h.step hvalues op
    obtain ⟨os, c', hexec, hrefines', hcapacity', hvalues'⟩ := ih hrefines hvalues₁
    refine ⟨o :: os, c', exec_cons_eq_some.2 ⟨o, c₁, os, hstep, hexec, rfl⟩, ?_,
      hcapacity'.trans hcapacity, hvalues'⟩
    rwa [hcapacity] at hrefines'

end Steps

/-- The runs of a new cache. -/
theorem run_empty {capacity : ℕ} (hpos : 1 ≤ capacity) (ops : List (Op K V)) :
    ∃ os c, exec step (empty capacity : Cache K V) ops = some (os, c) ∧
      c.Refines (ops.foldl (sieveStep capacity) {}) ∧ c.capacity = capacity ∧ c.Stores (latest ops) :=
  (refines_empty hpos).run (fun x hx => by cases hx) ops

/-- After every sequence of operations, the list, the table and the hand are consistent; a `get` finds the
    value of the latest `set`, or nothing if the key is not there; and a `set` takes out one key, if the
    cache is full and the key is new, and otherwise none. -/
theorem representation {capacity : ℕ} (hpos : 1 ≤ capacity) (ops : List (Op K V)) :
    ∃ os c, exec step (empty capacity : Cache K V) ops = some (os, c) ∧ c.capacity = capacity ∧ c.Inv ∧
      (∀ k ∈ c.keys, ∃ v c', latest ops k = some v ∧ c.get k = some (some v, c')) ∧
      (∀ k, k ∉ c.keys → c.get k = some (none, c)) ∧
      ∀ k v, ∃ c', c.set k v = some c' ∧ (k ∈ c.keys → c'.keys = c.keys) ∧
        (k ∉ c.keys → c.size < capacity → c'.keys = k :: c.keys) ∧
        (k ∉ c.keys → c.size = capacity → ∃ y ∈ c.keys, c'.keys = k :: c.keys.erase y) := by
  obtain ⟨os, c, hexec, h, hcapacity, hvalues⟩ := run_empty hpos ops
  refine ⟨os, c, hexec, hcapacity, h.toInv, fun k hk => ?_, fun k hk => h.get_not_mem hk, fun k v => ?_⟩
  · obtain ⟨v, c', hv, hget, -⟩ := h.get_mem hk hvalues
    exact ⟨v, c', hv, hget⟩
  · by_cases hk : k ∈ c.keys
    · obtain ⟨c', hset, -, -, hkeys, -⟩ := h.set_mem hk hvalues v
      exact ⟨c', hset, fun _ => hkeys, fun hnot => absurd hk hnot, fun hnot => absurd hk hnot⟩
    · rcases h.size.lt_or_eq with hlt | hfull
      · obtain ⟨c', hset, -, -, hkeys, -⟩ := h.set_room hk hlt hvalues v
        exact ⟨c', hset, fun hmem => absurd hmem hk, fun _ _ => hkeys, fun _ hfull => by omega⟩
      · obtain ⟨c', hset, -, -, ⟨y, hy, -, hkeys⟩, -⟩ := h.set_full hk hfull hvalues v
        exact ⟨c', hset, fun hmem => absurd hmem hk, fun _ hlt => by omega, fun _ _ => ⟨y, hy, hkeys⟩⟩

theorem representation_two : ∃ os c,
    exec step (empty 2 : Cache ℕ ℕ) [.set 1 10, .set 2 20, .get 1, .set 3 30] = some (os, c) ∧ c.Inv := by
  obtain ⟨os, c, hexec, -, hinv, -⟩ :=
    @representation ℕ ℕ _ 2 (by decide) [.set 1 10, .set 2 20, .get 1, .set 3 30]
  exact ⟨os, c, hexec, hinv⟩

/-- After every sequence of operations, the cache is at the state of the algorithm. A new key takes the place
    of the one the algorithm stops at; the marks of the keys it passes are cleared, and no others; and the
    hand is then at the key just newer than the one that went. -/
theorem sieve_refines {capacity : ℕ} (hpos : 1 ≤ capacity) (ops : List (Op K V)) :
    ∃ os c s, exec step (empty capacity : Cache K V) ops = some (os, c) ∧
      s = ops.foldl (sieveStep capacity) {} ∧ c.Refines s ∧
      (c.size = capacity → ∀ k, k ∉ c.keys → ∀ v, ∃ c' y, c.set k v = some c' ∧
        s.victim = some y ∧ y ∈ c.keys ∧ c'.keys = k :: c.keys.erase y ∧
        (∀ x ∈ c'.entries.nodes, x.2.key ≠ k →
          x.2.visited = if x.2.key ∈ s.passed then false else s.visited x.2.key) ∧
        ((c'.hand = none ∧ s.newer y = none) ∨
          ∃ x ∈ c'.index, c'.hand = some x.1 ∧ s.newer y = some x.2)) := by
  obtain ⟨os, c, hexec, h, hcapacity, hvalues⟩ := run_empty hpos ops
  refine ⟨os, c, _, hexec, rfl, h, fun hfull k hk v => ?_⟩
  rw [← hcapacity] at hfull
  obtain ⟨c', hset, hrefines, -, ⟨y, hy, hvictim, hkeys⟩, -⟩ := h.set_full hk hfull hvalues v
  rw [h.set_eq_evict hk hfull, Sieve.evict, hvictim] at hrefines
  refine ⟨c', y, hset, hvictim, hy, hkeys, fun x hx hne => ?_, hrefines.hand_eq⟩
  rw [hrefines.visited x hx, Sieve.visited, Sieve.insert, Sieve.latestHit_cons, Sieve.Event.key,
    if_neg hne.symm, Sieve.latestHit_append_passed]
  rfl

theorem sieve_refines_two : ∃ os c s,
    exec step (empty 2 : Cache ℕ ℕ) [.set 1 10, .set 2 20, .get 1] = some (os, c) ∧ c.Refines s ∧
      s.victim = some 2 := by
  obtain ⟨os, c, s, hexec, hs, h, -⟩ :=
    @sieve_refines ℕ ℕ _ 2 (by decide) [.set 1 10, .set 2 20, .get 1]
  refine ⟨os, c, s, hexec, h, ?_⟩
  rw [hs]
  decide

/-! ## `purge` -/

/-- The calls of a cache. -/
inductive Call (K V : Type*)
  | op (o : Op K V)
  | purge

/-- One call. -/
def callStep (c : Cache K V) : Call K V → Option (Option V × Cache K V)
  | .op o => c.step o
  | .purge => some (none, c.purge)

/-- The hand is at the end, or at an entry that is there. -/
def HandValid (c : Cache K V) : Prop := ∀ i ∈ c.hand, i ∈ c.entries.ids

/-- The hand stays valid, and no call follows one that is not, as long as `purge` is only called while it is
    at the end; the first other `purge` leaves it at an entry that is not there any more. -/
theorem purge_iff {capacity : ℕ} (hpos : 1 ≤ capacity) (calls : List (Call K V)) :
    Throughout callStep HandValid (empty capacity : Cache K V) calls ↔
      Along callStep (fun c call => call = .purge → c.hand = none) (empty capacity : Cache K V) calls := by
  refine throughout_iff_along (fun c => ∃ s values, c.Refines s ∧ c.Stores values) ?_ ?_ ?_ ?_
  · rintro c ⟨s, values, h, -⟩
    exact h.hand
  · rintro c call ⟨s, values, h, hvalues⟩ hcall
    cases call with
    | op o =>
      obtain ⟨out, c', hstep, hrefines, -, hvalues'⟩ := h.step hvalues o
      exact ⟨out, c', hstep, _, _, hrefines, hvalues'⟩
    | purge => exact ⟨none, c.purge, rfl, {}, values, h.purge (hcall rfl), fun x hx => by cases hx⟩
  · rintro c call out c' - hcall hstep hvalid
    -- Nothing is left for the hand to be at.
    rw [Classical.not_imp] at hcall
    obtain ⟨rfl, hhand⟩ := hcall
    obtain ⟨i, hi⟩ := Option.ne_none_iff_exists'.1 hhand
    cases hstep
    cases hvalid i hi
  · exact ⟨{}, fun _ => none, refines_empty hpos, fun x hx => by cases hx⟩

theorem purge_iff_two : Throughout callStep HandValid (empty 2 : Cache ℕ ℕ)
    [.op (.set 1 10), .purge, .op (.set 2 20), .op (.set 3 30), .op (.set 4 40)] :=
  (purge_iff (by decide) _).2
    ⟨by simp, fun _ _ h => by
      cases h
      exact ⟨fun _ => rfl, fun _ _ h => by cases h; simp [Along]⟩⟩

/-- Three keys are set in a cache for two of them, and it is purged: the hand is still at the entry of the
    second one. The next time that it is full, it is followed. -/
theorem purge_dangling :
    ¬Throughout callStep HandValid (empty 2 : Cache ℕ ℕ)
      [.op (.set 1 10), .op (.set 2 20), .op (.set 3 30), .purge] ∧
    exec callStep (empty 2 : Cache ℕ ℕ)
      [.op (.set 1 10), .op (.set 2 20), .op (.set 3 30), .purge,
        .op (.set 4 40), .op (.set 5 50), .op (.set 6 60)] = none := by
  constructor
  · intro h
    obtain ⟨os, c, hexec, hvalid⟩ := h _ List.prefix_rfl
    have hhand : c.hand = some 1 ∧ c.entries.ids = [] := by
      cases hexec
      decide
    have hmem := hvalid 1 hhand.1
    rw [hhand.2] at hmem
    cases hmem
  · rfl

end Cppnet.Util.Cache
