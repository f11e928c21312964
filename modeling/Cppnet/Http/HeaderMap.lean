import Cppnet.Http.Headers
import Mathlib.Data.List.Dedup
import Mathlib.Data.List.DropRight

/-!
# `headers` as a multimap

The overloads of `set` and `add` of `http/headers.cpp`. They differ in how the key and the values are passed,
as a `std::string` or as a `std::string_view`, and in the operation of the map they end up at:
`insert_or_assign`, or `operator[]` and an assignment or an insertion at the end. Those for two strings are
`set` and `add`. Keys are found by `keyhash` and `keyequal`.

* `keyhash_consistent`: keys that are equal have one hash, though the one goes by signed characters and the other
  by unsigned ones (`keyequal_eq_isEqv`);
* `headers_multimap`: after any calls, the values of a key are the list left by the last `set` of it, and
  those added to it since, whatever the case of the keys, and no matter which overloads were called.
-/

namespace Cppnet.Http

open Lib Util

/-- `std::tolower` of a number, in the C locale. -/
def tolowerInt (c : ℤ) : ℤ := if 65 ≤ c ∧ c ≤ 90 then c + 32 else c

/-- `keyhash`, where characters are signed. -/
def keyhash (key : Bytes) : UInt64 :=
  key.foldl (fun result c => (result * 16777619) ^^^ UInt64.ofInt (tolowerInt c.toInt8.toInt)) 2166136261

/-- `keyhash` of a `std::string`. -/
def keyhashString (key : Bytes) : UInt64 := keyhash key

/-- `keyequal`. -/
def keyequal (lhs rhs : Bytes) : Bool := equalIgnoreCase lhs rhs

/-- `keyequal(std::string_view, const std::string&)`. -/
def keyequalViewString (lhs rhs : Bytes) : Bool := equalIgnoreCase lhs rhs

/-- `keyequal(const std::string&, std::string_view)`. -/
def keyequalStringView (lhs rhs : Bytes) : Bool := equalIgnoreCase lhs rhs

/-- The characters that `equal_ignore_case` takes to be equal, where they are unsigned. -/
def compareChars (l r : Byte) : Bool := tolowerInt l.toNat == tolowerInt r.toNat

/-- The keys are compared one character after the other, up to the ends of both. -/
theorem keyequal_eq_isEqv (lhs rhs : Bytes) : keyequal lhs rhs = lhs.isEqv rhs compareChars := by
  have htolower : ∀ c : Byte, ((tolower c).toNat : ℤ) = tolowerInt c.toNat := by
    refine forall_byte ?_
    decide +kernel
  have hchars : ∀ l r : Byte, compareChars l r = (tolower l == tolower r) := by
    intro l r
    rw [Bool.eq_iff_iff, compareChars, beq_iff_eq, beq_iff_eq, ← htolower, ← htolower, Int.natCast_inj,
      UInt8.toNat_inj]
  rw [keyequal, equalIgnoreCase]
  induction lhs generalizing rhs with
  | nil => cases rhs <;> rfl
  | cons l lhs ih =>
    cases rhs with
    | nil => rfl
    | cons r rhs =>
      rw [lower, lower, List.map_cons, List.map_cons, List.cons_beq_cons, List.isEqv_cons_cons, hchars, ← ih, lower,
        lower]

/-- The hash is one of the key in lower case. -/
theorem keyhash_eq {lhs rhs : Bytes} (h : keyequal lhs rhs) : keyhash lhs = keyhash rhs := by
  have htolower : ∀ c : Byte, tolowerInt c.toInt8.toInt = (tolower c).toInt8.toInt := by
    refine forall_byte ?_
    decide +kernel
  have hlower : ∀ key, keyhash key =
      (lower key).foldl (fun result c => (result * 16777619) ^^^ UInt64.ofInt c.toInt8.toInt) 2166136261 := by
    intro key
    rw [keyhash, lower, List.foldl_map]
    simp only [htolower]
  rw [hlower, hlower, equalIgnoreCase_iff.1 h]

theorem keyequal_equivalence : Equivalence fun lhs rhs => keyequal lhs rhs where
  refl _ := equalIgnoreCase_iff.2 rfl
  symm h := equalIgnoreCase_iff.2 (equalIgnoreCase_iff.1 h).symm
  trans h h' := equalIgnoreCase_iff.2 ((equalIgnoreCase_iff.1 h).trans (equalIgnoreCase_iff.1 h'))

/-- Whichever overloads are called: equality of keys is an equivalence, and equal keys have one hash. -/
theorem keyhash_consistent : ∀ equal ∈ [keyequal, keyequalViewString, keyequalStringView],
    (Equivalence fun lhs rhs => equal lhs rhs) ∧
    ∀ hash ∈ [keyhash, keyhashString], ∀ hash' ∈ [keyhash, keyhashString], ∀ lhs rhs,
      equal lhs rhs → hash lhs = hash' rhs := by
  have hequal : ∀ equal ∈ [keyequal, keyequalViewString, keyequalStringView], equal = keyequal := by
    simp [keyequalViewString, keyequalStringView, funext_iff, keyequal]
  have hhash : ∀ hash ∈ [keyhash, keyhashString], hash = keyhash := by
    simp [keyhashString, funext_iff]
  intro equal he
  rw [hequal equal he]
  refine ⟨keyequal_equivalence, fun hash hh hash' hh' lhs rhs h => ?_⟩
  rw [hhash hash hh, hhash hash' hh']
  exact keyhash_eq h

/-- A key in another case. -/
theorem keyhash_consistent_host : keyhashString (sv "Host") = keyhash (sv "hOST") :=
  (keyhash_consistent keyequalStringView (by simp)).2 keyhashString (by simp) keyhash (by simp) (sv "Host") (sv "hOST")
    (by decide)

namespace Headers

/-! ## The overloads -/

section Overloads

variable (headers : Headers) (key val : Bytes) (vals : List Bytes)

/-- `set(const std::string&, std::initializer_list<std::string>)`: `insert_or_assign`, as in `set`. -/
def setStrings : Headers := headers.alter key [] fun _ => vals

/-- `set(std::string_view, std::string)`. -/
def setStringAtView : Headers := headers.set key val

/-- `set(std::string_view, std::initializer_list<std::string>)`. -/
def setStringsAtView : Headers := headers.setStrings key vals

/-- `add(std::string_view, std::string)`. -/
def addStringAtView : Headers := headers.add key val

/-- `set(const std::string&, std::string_view)`. -/
def setView : Headers := headers.set key val

/-- `set(const std::string&, std::initializer_list<std::string_view>)`: an assignment to `operator[]`. -/
def setViews : Headers := headers.alter key [] fun _ => vals

/-- `add(const std::string&, std::string_view)`: `emplace_back` at `operator[]`. -/
def addView : Headers := headers.alter key [] fun vals => vals ++ [val]

/-- `set(std::string_view, std::string_view)`. -/
def setViewAtView : Headers := headers.set key val

/-- `set(std::string_view, std::initializer_list<std::string_view>)`. -/
def setViewsAtView : Headers := headers.setViews key vals

/-- `add(std::string_view, std::string_view)`. -/
def addViewAtView : Headers := headers.addView key val

end Overloads

/-- `size`. -/
def size (headers : Headers) : ℕ := headers.entries.length

/-- How a string is passed. -/
inductive Passed
  | string
  | view

/-- The calls: an overload, for how the key and the values are passed, and its arguments. -/
inductive Call
  | set (key' val' : Passed) (key val : Bytes)
  | setList (key' val' : Passed) (key : Bytes) (vals : List Bytes)
  | add (key' val' : Passed) (key val : Bytes)

/-- One call. -/
def call (headers : Headers) : Call → Headers
  | .set .string .string key val => headers.set key val
  | .set .string .view key val => headers.setView key val
  | .set .view .string key val => headers.setStringAtView key val
  | .set .view .view key val => headers.setViewAtView key val
  | .setList .string .string key vals => headers.setStrings key vals
  | .setList .string .view key vals => headers.setViews key vals
  | .setList .view .string key vals => headers.setStringsAtView key vals
  | .setList .view .view key vals => headers.setViewsAtView key vals
  | .add .string .string key val => headers.add key val
  | .add .string .view key val => headers.addView key val
  | .add .view .string key val => headers.addStringAtView key val
  | .add .view .view key val => headers.addViewAtView key val

/-- Calls, one after the other, from no headers on. -/
def calls (cs : List Call) : Headers := cs.foldl call .empty

/-! ## The multimap -/

namespace Call

/-- The key of a call. -/
def key : Call → Bytes
  | set _ _ key _ => key
  | setList _ _ key _ => key
  | add _ _ key _ => key

/-- The values of a call. -/
def vals : Call → List Bytes
  | set _ _ _ val => [val]
  | setList _ _ _ vals => vals
  | add _ _ _ val => [val]

/-- The call is an `add`. -/
def isAdd : Call → Bool
  | set .. => false
  | setList .. => false
  | add .. => true

end Call

/-- The calls for a key, whatever its case. -/
def callsOn (k : Bytes) (cs : List Call) : List Call := cs.filter fun c => lower c.key = lower k

/-- What the last `set` leaves, and what is added after it. -/
def left (cs : List Call) : List Bytes :=
  ((cs.rdropWhile Call.isAdd).getLast?.map Call.vals).getD [] ++ (cs.rtakeWhile Call.isAdd).flatMap Call.vals

theorem left_concat (cs : List Call) (c : Call) :
    left (cs ++ [c]) = if c.isAdd then left cs ++ c.vals else c.vals := by
  rw [left]
  split_ifs with hc
  · rw [List.rdropWhile_concat_pos _ _ _ hc, List.rtakeWhile_concat_pos _ _ _ hc, List.flatMap_append, left,
      List.append_assoc, List.flatMap_singleton]
  · rw [List.rdropWhile_concat_neg _ _ _ hc, List.rtakeWhile_concat_neg _ _ _ hc, List.getLast?_concat]
    simp

/-- Every overload changes the values of its key, and of no other. -/
theorem call_eq (headers : Headers) (c : Call) :
    headers.call c = headers.alter c.key [] fun vals => if c.isAdd then vals ++ c.vals else c.vals := by
  cases c with
  | set key' val' key val => cases key' <;> cases val' <;> rfl
  | setList key' val' key vals => cases key' <;> cases val' <;> rfl
  | add key' val' key val => cases key' <;> cases val' <;> rfl

theorem calls_concat (cs : List Call) (c : Call) : calls (cs ++ [c]) = (calls cs).call c := by
  rw [calls, List.foldl_append]
  rfl

theorem callsOn_concat (k : Bytes) (cs : List Call) (c : Call) :
    callsOn k (cs ++ [c]) = if lower c.key = lower k then callsOn k cs ++ [c] else callsOn k cs := by
  rw [callsOn, List.filter_append]
  split_ifs with hkey
  · rw [List.filter_cons_of_pos (by simpa using hkey), List.filter_nil, callsOn]
  · rw [List.filter_cons_of_neg (by simpa using hkey), List.filter_nil, List.append_nil, callsOn]

/-- The values of a key after any calls. -/
theorem getAll_calls (cs : List Call) (k : Bytes) :
    (calls cs).getAll k = if callsOn k cs = [] then none else some (left (callsOn k cs)) := by
  induction cs using List.reverseRecOn with
  | nil => rfl
  | append_singleton cs c ih =>
    rw [getAll] at ih
    rw [getAll, calls_concat, call_eq, KeyedMap.find?_alter, ih, callsOn_concat]
    by_cases hkey : lower c.key = lower k
    · -- Without any calls before, there is nothing to add to.
      have hbefore : (if callsOn k cs = [] then none else some (left (callsOn k cs))).getD [] =
          left (callsOn k cs) := by
        split_ifs with hnil
        · rw [hnil]
          rfl
        · rfl
      rw [if_pos hkey, if_pos hkey, hbefore, left_concat, if_neg (List.concat_ne_nil c _)]
    · rw [if_neg hkey, if_neg hkey]

theorem mem_keys_calls {cs : List Call} {i : Bytes} :
    i ∈ (calls cs).keys ↔ i ∈ cs.map fun c => lower c.key := by
  induction cs using List.reverseRecOn with
  | nil => exact Iff.rfl
  | append_singleton cs c ih =>
    rw [calls_concat, call_eq, KeyedMap.mem_keys_alter, ih, List.map_append, List.mem_append, or_comm]
    simp

/-- The keys that are there are those that were called, each counted once. -/
theorem size_calls (cs : List Call) : (calls cs).size = (cs.map fun c => lower c.key).dedup.length := by
  have hperm : (calls cs).keys.Perm (cs.map fun c => lower c.key).dedup := by
    refine (List.perm_ext_iff_of_nodup (calls cs).nodup (List.nodup_dedup _)).2 fun i => ?_
    rw [List.mem_dedup]
    exact mem_keys_calls
  rw [size, ← hperm.length_eq, KeyedMap.keys, List.length_map]

/-- After any calls: the values of a key are what the last `set` for it leaves, and what is added after that;
    the value of a key is the first of them; and the keys are counted ignoring case. The table is one that
    `std::unordered_map` can work with: equal keys have equal hashes. -/
theorem headers_multimap (cs : List Call) (k : Bytes) :
    (∀ k', keyequal k k' → keyhash k = keyhash k') ∧
    (calls cs).getAll k = (if callsOn k cs = [] then none else some (left (callsOn k cs))) ∧
    (calls cs).get k = (left (callsOn k cs)).head? ∧
    (calls cs).getAll k = (calls (callsOn k cs)).getAll k ∧
    (calls cs).size = (cs.map fun c => lower c.key).dedup.length := by
  have hall := getAll_calls cs k
  refine ⟨fun k' => keyhash_eq, hall, ?_, ?_, size_calls cs⟩
  · rw [get, ← getAll, hall]
    split_ifs with hnil
    · rw [hnil]
      rfl
    · rfl
  · -- Calls for other keys do not matter.
    have hidem : callsOn k (callsOn k cs) = callsOn k cs := by simp [callsOn]
    rw [hall, getAll_calls, hidem]

end Headers

end Cppnet.Http
