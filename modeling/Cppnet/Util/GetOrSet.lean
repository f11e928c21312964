import Cppnet.Util.SieveCache

/-!
# `get_or_set`

`get` and `set` each take the lock of the cache, and `get_or_set` takes it for itself before it calls `set`.
The lock is given to nobody while it is held, so `get_or_set` returns for the keys that are there, and waits
for itself for all others (`getOrSet_iff`).

The states of a cache in use are those with a table of its entries (`indexed_of_exec`).
-/

namespace Cppnet.Util

open Lib

/-! ## The lock -/

/-- What a call comes to: it returns, or waits for a lock that nobody but its caller gives back, or what it
    does is undefined. -/
inductive LockOutcome (α : Type*)
  | returns (a : α)
  | waits
  | undefined

/-- A call behind another one. -/
def LockOutcome.bind {α β : Type*} : LockOutcome α → (α → LockOutcome β) → LockOutcome β
  | .returns a, f => f a
  | .waits, _ => .waits
  | .undefined, _ => .undefined

/-- A cache, and whether `mu` is held. -/
structure Guarded (K V : Type*) where
  cache : Cache K V
  held : Bool

namespace Guarded

variable {K V α : Type*}

/-- A scope with a lock of `mu`. -/
def locked (body : Guarded K V → LockOutcome (α × Guarded K V)) (s : Guarded K V) : LockOutcome (α × Guarded K V) :=
  if s.held then .waits
  else (body { s with held := true }).bind fun (a, s) => .returns (a, { s with held := false })

/-- What is done with the cache itself. -/
def access (op : Cache K V → Option (α × Cache K V)) (s : Guarded K V) : LockOutcome (α × Guarded K V) :=
  match op s.cache with
  | some (a, cache) => .returns (a, { s with cache })
  | none => .undefined

theorem access_eq {op : Cache K V → Option (α × Cache K V)} {c c' : Cache K V} {a : α}
    (h : op c = some (a, c')) : locked (access op) ⟨c, false⟩ = .returns (a, ⟨c', false⟩) := by
  simp only [locked, access, h, Bool.false_eq_true, if_false, LockOutcome.bind]

variable [DecidableEq K]

/-- `get`. -/
def get (key : K) : Guarded K V → LockOutcome (Option V × Guarded K V) := locked (access fun c => c.get key)

/-- `set`. -/
def set (key : K) (val : V) : Guarded K V → LockOutcome (Unit × Guarded K V) :=
  locked (access fun c => (c.set key val).map fun c => ((), c))

/-- `get_or_set`. -/
def getOrSet (key : K) (f : K → V) (s : Guarded K V) : LockOutcome (V × Guarded K V) :=
  (get key s).bind fun (opt, s) =>
    match opt with
    | some val => .returns (val, s)
    | none =>
      let result := f key
      locked (fun s => (set key result s).bind fun (_, s) => .returns (result, s)) s

/-- Nothing comes back from `set` while the lock is held. -/
theorem set_held (key : K) (val : V) (c : Cache K V) : set key val ⟨c, true⟩ = .waits := by
  rw [set, locked, if_pos rfl]

end Guarded

/-! ## The caches in use -/

namespace Cache

variable {K V : Type*} [DecidableEq K] {c c' : Cache K V}

omit [DecidableEq K] in
/-- Nothing but the entry itself changes. -/
theorem Indexed.modify (h : c.Indexed) {A B : List (ℕ × Entry K V)} {i : ℕ} {e e' : Entry K V}
    (hl : c.entries.nodes = A ++ (i, e) :: B) (hl' : c'.entries.nodes = A ++ (i, e') :: B)
    (hkey : e'.key = e.key) (hlookup : c'.lookup = c.lookup) : c'.Indexed := by
  have hindex : c'.index = c.index := by
    rw [index, index, hl, hl', List.map_append, List.map_cons, hkey, List.map_append, List.map_cons]
  intro k j
  rw [hlookup, hindex]
  exact h k j

/-- The hand of a cache that evicts is at an entry, or at the end behind the last one. -/
theorem start_of_evict (h : c.evict = some c') :
    ∃ A x B, c.entries.nodes = A ++ x :: B ∧ (c.hand = some x.1 ∨ (c.hand = none ∧ B = [])) := by
  obtain ⟨old, hold, h⟩ := Option.bind_eq_some_iff.1 h
  obtain ⟨r, hrun, -⟩ := Option.bind_eq_some_iff.1 h
  split_ifs at hold with hhand
  · rcases c.entries.nodes.eq_nil_or_concat with hnil | ⟨A, x, hl⟩
    · -- Without an entry, there is none before the end.
      rw [hhand, NodeList.prev, NodeList.back, hnil] at hold
      cases hold
      cases hrun
    · rw [List.concat_eq_append] at hl
      exact ⟨A, x, [], hl, .inr ⟨hhand, rfl⟩⟩
  · cases hold
    obtain ⟨i, hi⟩ := Option.ne_none_iff_exists'.1 hhand
    rw [hi, Loop.run, scan] at hrun
    cases he : c.entries.deref i with
    | none =>
      rw [he] at hrun
      cases hrun
    | some e =>
      obtain ⟨A, B, hl⟩ := NodeList.exists_of_deref he
      exact ⟨A, (i, e), B, hl, .inl hi⟩

/-- What `evict` leaves. -/
theorem Indexed.evict (h : c.Indexed) (hevict : c.evict = some c') :
    c'.Indexed ∧ ∀ k, c.lookup k = none → c'.lookup k = none := by
  obtain ⟨A, x, B, hl, hstart⟩ := start_of_evict hevict
  obtain ⟨C, y, D, c₁, -, hsplit, hevict₁, -, hlookup, hnodes, -⟩ := evict_eq hl hstart
  cases hevict₁.symm.trans hevict
  refine ⟨Indexed.remove (fun z => ⟨(clearIds_eq _ z).1, (clearIds_eq _ z).2.1⟩) hnodes h hsplit hlookup,
    fun k hk => ?_⟩
  rw [hlookup]
  dsimp only
  rw [hk, ite_self]

theorem Indexed.set (h : c.Indexed) {key : K} {val : V} (hset : c.set key val = some c') : c'.Indexed := by
  rw [Cache.set] at hset
  cases hlookup : c.lookup key with
  | some i =>
    rw [hlookup] at hset
    obtain ⟨e, he, rfl⟩ := Option.map_eq_some_iff.1 hset
    obtain ⟨A, B, hl⟩ := NodeList.exists_of_deref he
    have hl' := NodeList.nodes_modify hl fun e => { e with val, visited := true }
    exact h.modify hl hl' rfl rfl
  | none =>
    rw [hlookup] at hset
    obtain ⟨c₁, hc₁, rfl⟩ := Option.map_eq_some_iff.1 hset
    split_ifs at hc₁ with hfull
    · obtain ⟨h₁, hnone⟩ := h.evict hc₁
      exact h₁.push (hnone key hlookup) val
    · cases hc₁
      exact h.push hlookup val

omit [DecidableEq K] in
/-- `get` of a key that is there. -/
theorem Indexed.get (h : c.Indexed) {A B : List (ℕ × Entry K V)} {i : ℕ} {e : Entry K V}
    (hl : c.entries.nodes = A ++ (i, e) :: B) :
    ∃ c', c.get e.key = some (some e.val, c') ∧ c'.Indexed ∧
      c'.entries.nodes = A ++ (i, { e with visited := true }) :: B := by
  have hl' := NodeList.nodes_modify hl fun e => { e with visited := true }
  have hlookup : c.lookup e.key = some i :=
    (h e.key i).2 (mem_index (x := (i, e)) (hl ▸ List.mem_append_right _ List.mem_cons_self))
  exact ⟨_, get_eq hl hlookup, h.modify hl hl' rfl rfl, hl'⟩

theorem Indexed.erase (h : c.Indexed) {key : K} {b : Bool} (herase : c.erase key = some (b, c')) :
    c'.Indexed := by
  rw [Cache.erase] at herase
  cases hlookup : c.lookup key with
  | some i =>
    rw [hlookup] at herase
    obtain ⟨hand, -, herase⟩ := Option.bind_eq_some_iff.1 herase
    obtain ⟨e, he, heq⟩ := Option.map_eq_some_iff.1 herase
    cases heq
    obtain ⟨A, B, hl⟩ := NodeList.exists_of_deref he
    have hkey : e.key = key := by
      obtain ⟨x, hx, heq⟩ := List.mem_map.1 ((h key i).1 hlookup)
      cases heq
      have hie : (x.1, e) ∈ c.entries.nodes := hl ▸ List.mem_append_right _ List.mem_cons_self
      rw [NodeList.eq_of_fst hx hie rfl]
    refine Indexed.remove (f := id) (fun x => ⟨rfl, rfl⟩) ?_ h hl ?_
    · rw [List.map_id]
      exact NodeList.nodes_erase hl
    · rw [hkey]
  | none =>
    rw [hlookup] at herase
    cases herase
    exact h

omit [DecidableEq K] in
theorem indexed_purge (c : Cache K V) : c.purge.Indexed := by simp [Indexed, Cache.purge, NodeList.clear, index]

/-- Whatever is called, the table gives the entries of the list. -/
theorem indexed_of_exec {capacity : ℕ} {calls : List (Call K V)} {os : List (Option V)}
    (h : exec callStep (empty capacity : Cache K V) calls = some (os, c)) : c.Indexed := by
  refine exec_invariant Indexed (fun c call o c' h hstep => ?_) (by simp [Indexed, empty, NodeList.empty, index]) h
  rcases call with op | _
  · cases op with
    | set key val =>
      obtain ⟨c₁, hset, heq⟩ := Option.map_eq_some_iff.1 hstep
      cases heq
      exact h.set hset
    | get key =>
      change c.get key = _ at hstep
      cases hlookup : c.lookup key with
      | none =>
        rw [Cache.get, hlookup] at hstep
        cases hstep
        exact h
      | some i =>
        obtain ⟨⟨j, e⟩, hx, heq⟩ := List.mem_map.1 ((h key i).1 hlookup)
        cases heq
        obtain ⟨A, B, hl⟩ := List.append_of_mem hx
        obtain ⟨c₁, hget, h₁, -⟩ := h.get hl
        cases hget.symm.trans hstep
        exact h₁
    | erase key =>
      obtain ⟨⟨b, c₁⟩, herase, heq⟩ := Option.map_eq_some_iff.1 hstep
      cases heq
      exact h.erase herase
  · cases hstep
    exact indexed_purge c

end Cache

/-! ## `get_or_set` -/

namespace Guarded

variable {K V : Type*} [DecidableEq K] {c : Cache K V}

/-- It returns the value that is there for the key, and otherwise that of the function, and then `get` finds
    it. -/
def GetsOrSets (c : Cache K V) (key : K) (f : K → V) : Prop :=
  ∃ v c' s, getOrSet key f ⟨c, false⟩ = .returns (v, ⟨c', false⟩) ∧
    (∀ x ∈ c.entries.nodes, x.2.key = key → v = x.2.val) ∧ (key ∉ c.keys → v = f key) ∧
    get key ⟨c', false⟩ = .returns (some v, s)

/-- With the lock for itself, it waits for it in `set`. -/
theorem getOrSet_waits (h : c.Indexed) {key : K} (hkey : key ∉ c.keys) (f : K → V) :
    getOrSet key f ⟨c, false⟩ = .waits := by
  have hlookup : c.lookup key = none := by
    rcases hi : c.lookup key with _ | i
    · rfl
    · exact absurd (List.mem_map_of_mem ((h key i).1 hi)) hkey
  have hget : get key ⟨c, false⟩ = .returns (none, ⟨c, false⟩) :=
    access_eq (by rw [Cache.get, hlookup])
  rw [getOrSet, hget, LockOutcome.bind]
  dsimp only
  rw [locked, if_neg (by simp), set_held, LockOutcome.bind, LockOutcome.bind]

/-- It does what its name says for exactly the keys that are there. -/
theorem getOrSet_iff (h : c.Indexed) (key : K) (f : K → V) : GetsOrSets c key f ↔ key ∈ c.keys := by
  constructor
  · rintro ⟨v, c', s, hcall, -⟩
    by_contra hkey
    rw [getOrSet_waits h hkey] at hcall
    cases hcall
  · intro hkey
    obtain ⟨y, hy, rfl⟩ := List.mem_map.1 hkey
    obtain ⟨⟨i, e⟩, he, rfl⟩ := List.mem_map.1 hy
    obtain ⟨A, B, hl⟩ := List.append_of_mem he
    obtain ⟨c₁, hget, h₁, hl₁⟩ := h.get hl
    obtain ⟨c₂, hget', -⟩ := h₁.get hl₁
    refine ⟨e.val, c₁, ⟨c₂, false⟩, ?_, fun x hx heq => ?_, fun hnot => absurd hkey hnot, access_eq hget'⟩
    · have hcall : get e.key ⟨c, false⟩ = .returns (some e.val, ⟨c₁, false⟩) := access_eq hget
      change getOrSet e.key f ⟨c, false⟩ = _
      rw [getOrSet, hcall]
      rfl
    · -- Another entry of the key would be at the same place.
      have hx' := (h x.2.key x.1).2 (Cache.mem_index hx)
      have he' := (h e.key i).2 (Cache.mem_index he)
      rw [show x.2.key = e.key from heq] at hx'
      rw [NodeList.eq_of_fst hx he (Option.some.inj (hx'.symm.trans he'))]

/-- A key that is there. -/
theorem getOrSet_iff_present :
    ∃ os c, exec Cache.callStep (Cache.empty 2 : Cache ℕ ℕ) [.op (.set 1 10)] = some (os, c) ∧
      GetsOrSets c 1 (· + 5) := by
  let c : Cache ℕ ℕ :=
    { capacity := 2
      lookup := fun k => if k = 1 then some 0 else none
      entries := NodeList.empty.pushFront { key := 1, val := 10 }
      hand := none }
  have hexec : exec Cache.callStep (Cache.empty 2) [.op (.set 1 10)] = some ([none], c) := rfl
  exact ⟨_, c, hexec, (getOrSet_iff (Cache.indexed_of_exec hexec) 1 (· + 5)).2 (by decide)⟩

/-- A key that is not there, in a new cache. -/
theorem getOrSet_absent : getOrSet 1 (· + 5) ⟨(Cache.empty 2 : Cache ℕ ℕ), false⟩ = .waits ∧
    ¬GetsOrSets (Cache.empty 2 : Cache ℕ ℕ) 1 (· + 5) := by
  have hwaits : getOrSet 1 (· + 5) ⟨(Cache.empty 2 : Cache ℕ ℕ), false⟩ = .waits := rfl
  refine ⟨hwaits, ?_⟩
  rintro ⟨v, c', s, hcall, -⟩
  rw [hwaits] at hcall
  cases hcall

end Guarded

end Cppnet.Util
