import Cppnet.Encoding.Hex
import Cppnet.Instrument.AnyValue
import Cppnet.Lib.Encoder
import Mathlib.Data.List.Lex
import Mathlib.Order.Nat

/-!
# Records in JSON

What the `to_json` of `instrument/opentelemetry/protocol.cpp` have in common. A record becomes an object by
assignments to its members, one after another, from a `json` without a value.

An object keeps what is assigned, and each `json` that is assigned keeps the value it is of (`keeps_ofString` and so
on), for attributes by `eq_of_listToJson`.
-/

namespace Cppnet.Otel

open Lib

variable {δ ν ν' α ρ : Type}

/-! ## Numbers -/

/-- A number other than an `int64_t`. -/
inductive Number (δ : Type)
  | double (d : δ)
  | unsigned (n : UInt64)

mutual

/-- A JSON value with other doubles. -/
def Json.map (f : ν → ν') : Json ν → Json ν'
  | .null => .null
  | .boolean b => .boolean b
  | .integer i => .integer i
  | .float d => .float (f d)
  | .string s => .string s
  | .array values => .array (mapValues f values)
  | .object members => .object (mapMembers f members)

/-- The values of an array. -/
def mapValues (f : ν → ν') : List (Json ν) → List (Json ν')
  | [] => []
  | j :: js => j.map f :: mapValues f js

/-- The members of an object. -/
def mapMembers (f : ν → ν') : List (Bytes × Json ν) → List (Bytes × Json ν')
  | [] => []
  | (key, j) :: members => (key, j.map f) :: mapMembers f members

end

mutual

theorem Json.eq_of_map {f : ν → ν'} (hf : f.Injective) (j j' : Json ν) (h : j.map f = j'.map f) : j = j' := by
  cases j with
  | float d =>
    cases j' with
    | float d' =>
      rw [Json.map, Json.map] at h
      rw [hf (Json.float.inj h)]
    | _ =>
      rw [Json.map, Json.map] at h
      cases h
  | array values =>
    cases j' with
    | array values' =>
      rw [Json.map, Json.map] at h
      rw [eq_of_mapValues hf values values' (Json.array.inj h)]
    | _ =>
      rw [Json.map, Json.map] at h
      cases h
  | object members =>
    cases j' with
    | object members' =>
      rw [Json.map, Json.map] at h
      rw [eq_of_mapMembers hf members members' (Json.object.inj h)]
    | _ =>
      rw [Json.map, Json.map] at h
      cases h
  | _ => cases j' <;> simp_all [Json.map]

theorem eq_of_mapValues {f : ν → ν'} (hf : f.Injective) (js js' : List (Json ν))
    (h : mapValues f js = mapValues f js') : js = js' := by
  cases js with
  | nil =>
    cases js' with
    | nil => rfl
    | cons j' js' =>
      rw [mapValues, mapValues] at h
      cases h
  | cons j js =>
    cases js' with
    | nil =>
      rw [mapValues, mapValues] at h
      cases h
    | cons j' js' =>
      rw [mapValues, mapValues, List.cons.injEq] at h
      rw [Json.eq_of_map hf j j' h.1, eq_of_mapValues hf js js' h.2]

theorem eq_of_mapMembers {f : ν → ν'} (hf : f.Injective) (ms ms' : List (Bytes × Json ν))
    (h : mapMembers f ms = mapMembers f ms') : ms = ms' := by
  cases ms with
  | nil =>
    cases ms' with
    | nil => rfl
    | cons m' ms' =>
      rw [mapMembers, mapMembers] at h
      cases h
  | cons m ms =>
    cases ms' with
    | nil =>
      rw [mapMembers, mapMembers] at h
      cases h
    | cons m' ms' =>
      obtain ⟨key, j⟩ := m
      obtain ⟨key', j'⟩ := m'
      rw [mapMembers, mapMembers, List.cons.injEq, Prod.mk.injEq] at h
      rw [h.1.1, Json.eq_of_map hf j j' h.1.2, eq_of_mapMembers hf ms ms' h.2]

end

/-! ## Members -/

/-- A `json` takes members if it is an object, or nothing yet. -/
instance : Assignable (Json ν) Bytes (Json ν) where
  find? j key :=
    match j with
    | .object members => members.lookup key
    | _ => none
  assign := Json.assign
  Accepts j :=
    match j with
    | .null => True
    | .object _ => True
    | _ => False

theorem lookup_cons (key : Bytes) (value : Json ν) (members : List (Bytes × Json ν)) (key' : Bytes) :
    ((key, value) :: members).lookup key' = if key' = key then some value else members.lookup key' := by
  rw [List.lookup_cons]
  split_ifs with hkey
  · rw [beq_iff_eq.2 hkey]
  · rw [beq_eq_false_iff_ne.2 hkey]

theorem lookup_insert (key : Bytes) (value : Json ν) (members : List (Bytes × Json ν)) (key' : Bytes) :
    (Json.insert key value members).lookup key' = if key' = key then some value else members.lookup key' := by
  induction members with
  | nil => exact lookup_cons key value [] key'
  | cons m members ih =>
    obtain ⟨k, v⟩ := m
    rw [Json.insert]
    by_cases hlt : key < k
    · rw [if_pos hlt]
      exact lookup_cons key value ((k, v) :: members) key'
    rw [if_neg hlt]
    by_cases hgt : k < key
    · rw [if_pos hgt, lookup_cons, ih, lookup_cons]
      split_ifs with hk hkey
      · exact absurd hgt (hk ▸ hkey ▸ List.lt_irrefl key')
      · rfl
      · rfl
      · rfl
    · -- The key of the member is neither less nor greater.
      rw [if_neg hgt, List.le_antisymm (List.not_lt.1 hlt) (List.not_lt.1 hgt), lookup_cons, lookup_cons]
      split_ifs <;> rfl

instance : LawfulAssignable (Json ν) where
  exists_assign {j} hj key value := by
    cases j with
    | null => exact ⟨_, rfl, trivial⟩
    | object members => exact ⟨_, rfl, trivial⟩
    | _ => exact hj.elim
  find?_assign {j j'} key value h key' := by
    cases j with
    | null =>
      cases h
      exact lookup_cons key value [] key'
    | object members =>
      cases h
      exact lookup_insert key value members key'
    | _ => cases h

/-- An object with members of its own. -/
def record (fields : List (Assignment Bytes (Json ν))) : Option (Json ν) := assignAll Json.null fields

/-! ## Values -/

/-- The `json` of a string. -/
def ofString (s : Bytes) : Option (Json ν) := some (.string s)

def ofBool (b : Bool) : Option (Json ν) := some (.boolean b)

def ofInt64 (i : Int64) : Option (Json ν) := some (.integer i)

def ofUInt64 (n : UInt64) : Option (Json (Number δ)) := some (.float (.unsigned n))

def ofUInt32 (n : UInt32) : Option (Json (Number δ)) := ofUInt64 n.toUInt64

def ofUInt8 (n : Byte) : Option (Json (Number δ)) := ofUInt64 n.toUInt64

def ofDouble (d : δ) : Option (Json (Number δ)) := some (.float (.double d))

/-- An id is written in hexadecimal. -/
def ofHex {n : ℕ} (id : { id : Bytes // id.length = n }) : Option (Json ν) := ofString (Hex.encode id)

def ofList (toJson : α → Option (Json ν)) (values : List α) : Option (Json ν) := (values.mapM toJson).map .array

def ofKeyValues (values : List (KeyValue δ)) : Option (Json (Number δ)) :=
  (listToJson values).map fun js => .array (mapValues .double js)


section Keeps

theorem keeps_ofString : Keeps (ofString (ν := ν)) id := .of_injective fun _ _ => Json.string.inj

theorem keeps_ofBool : Keeps (ofBool (ν := ν)) id := .of_injective fun _ _ => Json.boolean.inj

theorem keeps_ofInt64 : Keeps (ofInt64 (ν := ν)) id := .of_injective fun _ _ => Json.integer.inj

theorem keeps_ofUInt64 : Keeps (ofUInt64 (δ := δ)) id :=
  .of_injective fun _ _ h => Number.unsigned.inj (Json.float.inj h)

theorem keeps_ofUInt32 : Keeps (ofUInt32 (δ := δ)) id :=
  .of_injective fun _ _ h => UInt32.toUInt64_inj.1 (Number.unsigned.inj (Json.float.inj h))

theorem keeps_ofUInt8 : Keeps (ofUInt8 (δ := δ)) id :=
  .of_injective fun _ _ h => UInt8.toUInt64_inj.1 (Number.unsigned.inj (Json.float.inj h))

theorem keeps_ofDouble : Keeps (ofDouble (δ := δ)) id :=
  .of_injective fun _ _ h => Number.double.inj (Json.float.inj h)

theorem keeps_ofHex {n : ℕ} : Keeps (ofHex (ν := ν) (n := n)) id :=
  .of_injective fun a b h => by
    have htext : Hex.text a = Hex.text b := by rw [← Hex.encode_eq, ← Hex.encode_eq, Json.string.inj h]
    exact Subtype.ext ((Hex.denotes_text a.1).unique (htext ▸ Hex.denotes_text b.1))

theorem keeps_ofList {toJson : α → Option (Json ν)} {part : α → ρ} (h : Keeps toJson part) :
    Keeps (ofList toJson) (List.map part) := h.mapM.map fun _ _ => Json.array.inj

theorem keeps_ofKeyValues : Keeps (ofKeyValues (δ := δ)) id := by
  have hlist : Keeps (listToJson (δ := δ)) id := by
    refine ⟨isSome_listToJson, fun values values' => ⟨fun h => ?_, congrArg _⟩⟩
    obtain ⟨js, hjs⟩ := Option.isSome_iff_exists.1 (isSome_listToJson values)
    exact eq_of_listToJson values values' js hjs (h.symm.trans hjs)
  exact hlist.map fun js js' h => eq_of_mapValues (fun _ _ => Number.double.inj) js js' (Json.array.inj h)

/-- An object keeps what its members keep. -/
theorem keeps_record {keys : List Bytes} (hnodup : keys.Nodup) {fields : α → List (Assignment Bytes (Json ν))}
    {part : α → ρ} (h : KeepsFields keys fields part) : Keeps (fun a => record (fields a)) part :=
  .record (m := Json.null) trivial (fun _ => rfl) hnodup h

end Keeps

end Cppnet.Otel
