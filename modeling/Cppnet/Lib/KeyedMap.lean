import Mathlib.Algebra.GroupWithZero.Nat
import Mathlib.Data.List.Basic
import Mathlib.Data.List.Nodup
import Mathlib.Data.List.Perm.Basic

/-!
# Maps

Maps with keys `κ` that count as equal when a function `key` says so: an
`unordered_map` with a key comparison of its own. A map is the list of its
entries, no two of them with equal keys; it keeps the key an entry was inserted
with. As an `unordered_map` lists its entries in an order of its own, maps are
the same if their entries are, in any order (`Same`).

* `find?`, and `alter`, which changes the value of a key, inserting it if need
  be;
* `push`, for maps to lists of values, adds one value to a key; `addAll` adds
  several, and there are as many more (`count_addAll`). Adding the values of a map
  key by key, to an empty map, gives back the map (`entries_addAll_flatMap`).
-/

namespace Lib

/-- A map from `κ` to `ν`, with keys compared by their image under `key`. -/
structure KeyedMap {κ ι : Type*} (key : κ → ι) (ν : Type*) where
  entries : List (κ × ν)
  nodup : (entries.map fun e => key e.1).Nodup

namespace KeyedMap

variable {κ ι ν β : Type*} {key : κ → ι}

@[ext] theorem ext {m m' : KeyedMap key ν} (h : m.entries = m'.entries) : m = m' := by
  cases m
  cases m'
  cases h
  rfl

instance [DecidableEq κ] [DecidableEq ν] : DecidableEq (KeyedMap key ν) := fun m m' =>
  decidable_of_iff (m.entries = m'.entries) ⟨ext, congrArg entries⟩

/-- The map without entries. -/
def empty : KeyedMap key ν := ⟨[], List.nodup_nil⟩

/-- The images of the keys of a map. -/
def keys (m : KeyedMap key ν) : List ι := m.entries.map fun e => key e.1

@[simp] theorem keys_empty : (empty : KeyedMap key ν).keys = [] := rfl

/-- The same entries, in any order. -/
def Same (m m' : KeyedMap key ν) : Prop := m.entries.Perm m'.entries

section Operations

variable [DecidableEq ι]

/-- The value of a key. -/
def find? (m : KeyedMap key ν) (k : κ) : Option ν :=
  (m.entries.find? fun e => key e.1 = key k).map Prod.snd

/-- The entries with the value `v` of `k` changed to `f v`, or, if there is none,
    with `f d` for `k` at the end. -/
def alterEntries (key : κ → ι) (k : κ) (d : ν) (f : ν → ν) : List (κ × ν) → List (κ × ν)
  | [] => [(k, f d)]
  | e :: es => if key e.1 = key k then (e.1, f e.2) :: es else e :: alterEntries key k d f es

theorem mem_keys_alterEntries {k : κ} {d : ν} {f : ν → ν} {es : List (κ × ν)} {i : ι} :
    i ∈ (alterEntries key k d f es).map (fun e => key e.1) ↔
      i = key k ∨ i ∈ es.map fun e => key e.1 := by
  induction es with
  | nil => simp [alterEntries]
  | cons e es ih =>
    rw [alterEntries]
    split
    · next he =>
      simp only [List.map_cons, List.mem_cons, he]
      tauto
    · simp only [List.map_cons, List.mem_cons, ih]
      tauto

theorem nodup_alterEntries {k : κ} {d : ν} {f : ν → ν} {es : List (κ × ν)}
    (h : (es.map fun e => key e.1).Nodup) :
    ((alterEntries key k d f es).map fun e => key e.1).Nodup := by
  induction es with
  | nil => exact List.nodup_singleton _
  | cons e es ih =>
    rw [List.map_cons, List.nodup_cons] at h
    rw [alterEntries]
    split
    · exact List.nodup_cons.2 h
    · next he =>
      rw [List.map_cons, List.nodup_cons, mem_keys_alterEntries]
      exact ⟨fun hk => hk.elim he h.1, ih h.2⟩

/-- Changes the value `v` of `k` to `f v`, after inserting `d` if there is none. -/
def alter (m : KeyedMap key ν) (k : κ) (d : ν) (f : ν → ν) : KeyedMap key ν :=
  ⟨alterEntries key k d f m.entries, nodup_alterEntries m.nodup⟩

theorem mem_keys_alter {m : KeyedMap key ν} {k : κ} {d : ν} {f : ν → ν} {i : ι} :
    i ∈ (m.alter k d f).keys ↔ i = key k ∨ i ∈ m.keys :=
  mem_keys_alterEntries

theorem find?_alter (m : KeyedMap key ν) (k : κ) (d : ν) (f : ν → ν) (j : κ) :
    (m.alter k d f).find? j =
      if key k = key j then some (f ((m.find? j).getD d)) else m.find? j := by
  rw [find?, find?, alter]
  dsimp only
  induction m.entries with
  | nil => by_cases h : key k = key j <;> simp [alterEntries, h]
  | cons e es ih =>
    rw [alterEntries]
    by_cases he : key e.1 = key k
    · rw [if_pos he]
      by_cases hk : key k = key j <;> simp [he, hk]
    · rw [if_neg he]
      by_cases hj : key e.1 = key j
      · have hk : key k ≠ key j := fun h => he (hj.trans h.symm)
        simp [hj, hk]
      · simpa [hj] using ih

/-- A key is looked for behind the entries without it. -/
theorem alterEntries_append {k : κ} {es : List (κ × ν)} (hk : key k ∉ es.map fun e => key e.1)
    (d : ν) (f : ν → ν) (es' : List (κ × ν)) :
    alterEntries key k d f (es ++ es') = es ++ alterEntries key k d f es' := by
  induction es with
  | nil => rfl
  | cons e es ih =>
    rw [List.map_cons, List.mem_cons, not_or] at hk
    rw [List.cons_append, alterEntries, if_neg fun h => hk.1 h.symm, ih hk.2, List.cons_append]

/-- A new key comes at the end. -/
theorem entries_alter_of_not_mem {m : KeyedMap key ν} {k : κ} (hk : key k ∉ m.keys) (d : ν)
    (f : ν → ν) : (m.alter k d f).entries = m.entries ++ [(k, f d)] := by
  have h := alterEntries_append hk d f []
  rwa [List.append_nil] at h

/-- The key of the last entry is found there. -/
theorem entries_alter_last {m : KeyedMap key ν} {es : List (κ × ν)} {k : κ} {v : ν}
    (hm : m.entries = es ++ [(k, v)]) (d : ν) (f : ν → ν) :
    (m.alter k d f).entries = es ++ [(k, f v)] := by
  have hnodup := m.nodup
  rw [hm, List.map_append, List.map_singleton, List.nodup_append] at hnodup
  have hk : key k ∉ es.map fun e => key e.1 := fun h =>
    hnodup.2.2 _ h _ List.mem_cons_self rfl
  change alterEntries key k d f m.entries = _
  rw [hm, alterEntries_append hk, alterEntries, if_pos rfl]

/-- What holds of all entries holds of them after a change, if it holds of the one that is changed. -/
theorem forall_mem_alter {m : KeyedMap key ν} {P : κ × ν → Prop} (h : ∀ e ∈ m.entries, P e) {k : κ} {d : ν}
    {f : ν → ν} (hnew : P (k, f d)) (hold : ∀ e ∈ m.entries, P (e.1, f e.2)) :
    ∀ e ∈ (m.alter k d f).entries, P e := by
  rw [alter]
  dsimp only
  generalize m.entries = es at h hold
  induction es with
  | nil => exact List.forall_mem_singleton.2 hnew
  | cons e es ih =>
    rw [List.forall_mem_cons] at h hold
    rw [alterEntries]
    split_ifs
    · exact List.forall_mem_cons.2 ⟨hold.1, h.2⟩
    · exact List.forall_mem_cons.2 ⟨h.1, ih h.2 hold.2⟩

theorem find?_eq_some_iff {m : KeyedMap key ν} {k : κ} {v : ν} :
    m.find? k = some v ↔ ∃ k', (k', v) ∈ m.entries ∧ key k' = key k := by
  constructor
  · intro h
    obtain ⟨e, he, rfl⟩ := Option.map_eq_some_iff.1 h
    exact ⟨e.1, List.mem_of_find?_eq_some he, by simpa using List.find?_some he⟩
  · rintro ⟨k', hmem, hkey⟩
    have hsome : (m.entries.find? fun e => key e.1 = key k).isSome :=
      List.find?_isSome.2 ⟨_, hmem, by simpa using hkey⟩
    obtain ⟨e, he⟩ := Option.isSome_iff_exists.1 hsome
    have hkey' : key e.1 = key k := by simpa using List.find?_some he
    -- There are no two entries of one key.
    have heq := List.inj_on_of_nodup_map m.nodup (List.mem_of_find?_eq_some he) hmem (hkey'.trans hkey.symm)
    rw [find?, he, heq, Option.map_some]

/-- What is found does not depend on the order of the entries. -/
theorem Same.find?_eq {m m' : KeyedMap key ν} (h : m.Same m') (k : κ) : m.find? k = m'.find? k := by
  ext v
  rw [find?_eq_some_iff, find?_eq_some_iff]
  exact exists_congr fun k' => and_congr_left fun _ => h.mem_iff

/-! ## Lists of values -/

/-- Adds a value to those of a key. -/
def push (m : KeyedMap key (List β)) (k : κ) (v : β) : KeyedMap key (List β) :=
  m.alter k [] (· ++ [v])

/-- Adds values to keys, one after the other. -/
def addAll (m : KeyedMap key (List β)) (kvs : List (κ × β)) : KeyedMap key (List β) :=
  kvs.foldl (fun m kv => m.push kv.1 kv.2) m

variable {m : KeyedMap key (List β)}

@[simp] theorem addAll_nil (m : KeyedMap key (List β)) : m.addAll [] = m := rfl

@[simp] theorem addAll_cons (m : KeyedMap key (List β)) (kv : κ × β) (kvs : List (κ × β)) :
    m.addAll (kv :: kvs) = (m.push kv.1 kv.2).addAll kvs := rfl

theorem addAll_append (m : KeyedMap key (List β)) (kvs kvs' : List (κ × β)) :
    m.addAll (kvs ++ kvs') = (m.addAll kvs).addAll kvs' :=
  List.foldl_append

theorem mem_keys_addAll {kvs : List (κ × β)} {i : ι} :
    i ∈ (m.addAll kvs).keys ↔ i ∈ m.keys ∨ ∃ kv ∈ kvs, key kv.1 = i := by
  induction kvs generalizing m with
  | nil => simp
  | cons kv kvs ih =>
    rw [addAll_cons, ih, push, mem_keys_alter, List.exists_mem_cons_iff, eq_comm]
    tauto

/-- The values of a key after adding: those it had, then those added to it. -/
theorem find?_addAll (m : KeyedMap key (List β)) (kvs : List (κ × β)) (j : κ) :
    (m.addAll kvs).find? j =
      if (kvs.filter fun kv => key kv.1 = key j) = [] then m.find? j
      else some ((m.find? j).getD [] ++ (kvs.filter fun kv => key kv.1 = key j).map Prod.snd) := by
  induction kvs generalizing m with
  | nil => simp
  | cons kv kvs ih =>
    rw [addAll_cons, ih, push, find?_alter]
    by_cases hk : key kv.1 = key j
    · by_cases hnil : (kvs.filter fun kv => key kv.1 = key j) = [] <;> simp [hk, hnil]
    · rw [if_neg hk, List.filter_cons_of_neg (by simpa using hk)]

/-- The number of values. -/
def count (m : KeyedMap key (List β)) : ℕ := (m.entries.map fun e => e.2.length).sum

theorem count_push (m : KeyedMap key (List β)) (k : κ) (v : β) :
    (m.push k v).count = m.count + 1 := by
  rw [count, count, push, alter]
  dsimp only
  induction m.entries with
  | nil => rfl
  | cons e es ih =>
    rw [alterEntries]
    split
    · simp only [List.map_cons, List.sum_cons, List.length_append, List.length_singleton]
      exact Nat.add_right_comm _ _ _
    · simp only [List.map_cons, List.sum_cons, ih]
      exact (Nat.add_assoc _ _ _).symm

theorem count_addAll (m : KeyedMap key (List β)) (kvs : List (κ × β)) :
    (m.addAll kvs).count = m.count + kvs.length := by
  induction kvs generalizing m with
  | nil => rfl
  | cons kv kvs ih =>
    rw [addAll_cons, ih, count_push, List.length_cons]
    exact Nat.add_right_comm _ _ _

/-- Adding values to the key of the last entry. -/
theorem entries_addAll_last {es : List (κ × List β)} {k : κ} {vs : List β}
    (hm : m.entries = es ++ [(k, vs)]) (vs' : List β) :
    (m.addAll (vs'.map (k, ·))).entries = es ++ [(k, vs ++ vs')] := by
  induction vs' generalizing m vs with
  | nil => simpa using hm
  | cons v vs' ih =>
    have h := ih (entries_alter_last hm [] (· ++ [v]))
    rwa [List.append_assoc, List.singleton_append] at h

/-- Adding all values of a new key. -/
theorem entries_addAll_of_not_mem {k : κ} (hk : key k ∉ m.keys) {vs : List β} (hvs : vs ≠ []) :
    (m.addAll (vs.map (k, ·))).entries = m.entries ++ [(k, vs)] := by
  obtain ⟨v, vs, rfl⟩ := List.exists_cons_of_ne_nil hvs
  exact entries_addAll_last (entries_alter_of_not_mem hk [] (· ++ [v])) vs

/-- Adding the values of new keys, key by key. -/
theorem entries_addAll_flatMap {es : List (κ × List β)} (hes : (es.map fun e => key e.1).Nodup)
    (hne : ∀ e ∈ es, e.2 ≠ []) (hm : ∀ e ∈ es, key e.1 ∉ m.keys) :
    (m.addAll (es.flatMap fun e => e.2.map (e.1, ·))).entries = m.entries ++ es := by
  induction es generalizing m with
  | nil => simp
  | cons e es ih =>
    rw [List.map_cons, List.nodup_cons] at hes
    have hentries := entries_addAll_of_not_mem (hm e List.mem_cons_self) (hne e List.mem_cons_self)
    rw [List.flatMap_cons, addAll_append, ih hes.2 fun e' he' => hne e' (List.mem_cons_of_mem e he'),
      hentries, List.append_assoc, List.singleton_append]
    intro e' he' hmem
    rw [keys, hentries, List.map_append, List.mem_append] at hmem
    rcases hmem with hmem | hmem
    · exact hm e' (List.mem_cons_of_mem e he') hmem
    · rw [List.map_singleton, List.mem_singleton] at hmem
      exact hes.1 (hmem ▸ List.mem_map_of_mem he')

end Operations

end KeyedMap

end Lib
