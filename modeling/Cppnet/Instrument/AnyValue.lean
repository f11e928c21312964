import Cppnet.Encoding.Base64

/-!
# Attribute values

`instrument/opentelemetry/protocol.cpp`: the JSON of an `any_value`, a value of one of seven kinds, two of which have
values inside of them.

* `toJson_injective`: every value has a JSON, and no two values have the same one. The kind of a value is the key of
  its object; what is in it is the value again, for bytes by what base64 makes of them.
-/

namespace Cppnet.Otel

open Lib

variable {δ : Type}

/-- A JSON value, with doubles of the type `δ`. The members of an object are in the order of their keys. -/
inductive Json (δ : Type)
  | null
  | boolean (b : Bool)
  | integer (i : Int64)
  | float (d : δ)
  | string (s : Bytes)
  | array (values : List (Json δ))
  | object (members : List (Bytes × Json δ))

namespace Json

/-- The members of an object with one more, or another value for a key. -/
def insert (key : Bytes) (value : Json δ) : List (Bytes × Json δ) → List (Bytes × Json δ)
  | [] => [(key, value)]
  | (k, v) :: members =>
    if key < k then (key, value) :: (k, v) :: members
    else if k < key then (k, v) :: insert key value members
    else (key, value) :: members

/-- `j[key] = value`, which throws unless `j` is an object, or nothing yet. -/
def assign (j : Json δ) (key : Bytes) (value : Json δ) : Option (Json δ) :=
  match j with
  | .null => some (.object [(key, value)])
  | .object members => some (.object (insert key value members))
  | _ => none

end Json

/-- `std::vector<std::byte>`: no longer than a vector may be. -/
abbrev ByteVector := { data : Bytes // data.length < 2 ^ 63 }

mutual

/-- `any_value`. -/
inductive AnyValue (δ : Type)
  | string (s : Bytes)
  | bool (b : Bool)
  | int (i : Int64)
  | double (d : δ)
  | arrayValue (values : List (AnyValue δ))
  | keyValueList (values : List (KeyValue δ))
  | bytes (b : ByteVector)

/-- `key_value`. -/
inductive KeyValue (δ : Type)
  | mk (key : Bytes) (value : AnyValue δ)

end

/-- What `enc.encode` gives for bytes. -/
def encodeBytes (data : Bytes) : Option Bytes := do
  let enc ← Base64.encoding Base64.standardAlphabet (ch '=')
  enc.encode data

mutual

/-- `to_json` of an `any_value`. -/
def AnyValue.toJson : AnyValue δ → Option (Json δ)
  | .string s => Json.null.assign (sv "stringValue") (.string s)
  | .bool b => Json.null.assign (sv "boolValue") (.boolean b)
  | .int i => Json.null.assign (sv "intValue") (.integer i)
  | .double d => Json.null.assign (sv "doubleValue") (.float d)
  | .arrayValue values => do
    let values ← arrayToJson values
    let j ← Json.null.assign (sv "values") (.array values)
    Json.null.assign (sv "arrayValue") j
  | .keyValueList values => do
    let values ← listToJson values
    let j ← Json.null.assign (sv "values") (.array values)
    Json.null.assign (sv "kvlistValue") j
  | .bytes b => do
    let encoded ← encodeBytes b.1
    Json.null.assign (sv "bytesValue") (.string encoded)

/-- `to_json` of a `key_value`. -/
def KeyValue.toJson : KeyValue δ → Option (Json δ)
  | .mk key value => do
    let j ← Json.null.assign (sv "key") (.string key)
    let value ← value.toJson
    j.assign (sv "value") value

/-- The JSON of the values of an array. -/
def arrayToJson : List (AnyValue δ) → Option (List (Json δ))
  | [] => some []
  | value :: values => do
    let j ← value.toJson
    let js ← arrayToJson values
    some (j :: js)

/-- The JSON of the members of a list of keys and values. -/
def listToJson : List (KeyValue δ) → Option (List (Json δ))
  | [] => some []
  | value :: values => do
    let j ← value.toJson
    let js ← listToJson values
    some (j :: js)

end

/-! ## What is in the JSON of a value -/

/-- The kinds of values. -/
inductive Kind
  | string
  | bool
  | int
  | double
  | arrayValue
  | keyValueList
  | bytes
  deriving DecidableEq

/-- The key that stands for a kind. -/
def Kind.key : Kind → Bytes
  | .string => sv "stringValue"
  | .bool => sv "boolValue"
  | .int => sv "intValue"
  | .double => sv "doubleValue"
  | .arrayValue => sv "arrayValue"
  | .keyValueList => sv "kvlistValue"
  | .bytes => sv "bytesValue"

theorem Kind.key_injective : Function.Injective Kind.key := by
  intro k k'
  cases k <;> cases k' <;> decide

/-- The kind of a value. -/
def AnyValue.kind : AnyValue δ → Kind
  | .string _ => .string
  | .bool _ => .bool
  | .int _ => .int
  | .double _ => .double
  | .arrayValue _ => .arrayValue
  | .keyValueList _ => .keyValueList
  | .bytes _ => .bytes

section Members

variable {a b : AnyValue δ} {j : Json δ}

theorem toJson_arrayValue {values : List (AnyValue δ)} (h : (AnyValue.arrayValue values).toJson = some j) :
    ∃ js, arrayToJson values = some js ∧
      j = .object [(sv "arrayValue", .object [(sv "values", .array js)])] := by
  rw [AnyValue.toJson] at h
  obtain ⟨js, hjs, h⟩ := Option.bind_eq_some_iff.1 h
  exact ⟨js, hjs, (Option.some.inj h).symm⟩

theorem toJson_keyValueList {values : List (KeyValue δ)} (h : (AnyValue.keyValueList values).toJson = some j) :
    ∃ js, listToJson values = some js ∧
      j = .object [(sv "kvlistValue", .object [(sv "values", .array js)])] := by
  rw [AnyValue.toJson] at h
  obtain ⟨js, hjs, h⟩ := Option.bind_eq_some_iff.1 h
  exact ⟨js, hjs, (Option.some.inj h).symm⟩

theorem toJson_bytes {data : ByteVector} (h : (AnyValue.bytes data).toJson = some j) :
    ∃ encoded, encodeBytes data.1 = some encoded ∧ j = .object [(sv "bytesValue", .string encoded)] := by
  rw [AnyValue.toJson] at h
  obtain ⟨encoded, hencoded, h⟩ := Option.bind_eq_some_iff.1 h
  exact ⟨encoded, hencoded, (Option.some.inj h).symm⟩

theorem toJson_keyValue {key : Bytes} (h : (KeyValue.mk key a).toJson = some j) :
    ∃ j', a.toJson = some j' ∧ j = .object [(sv "key", .string key), (sv "value", j')] := by
  rw [KeyValue.toJson] at h
  obtain ⟨j₁, hj₁, h⟩ := Option.bind_eq_some_iff.1 h
  obtain ⟨j', hj', h⟩ := Option.bind_eq_some_iff.1 h
  cases hj₁
  have hlt : ¬sv "value" < sv "key" ∧ sv "key" < sv "value" := by decide
  change some (Json.object (Json.insert (sv "value") j' [(sv "key", .string key)])) = some j at h
  rw [Json.insert, if_neg hlt.1, if_pos hlt.2, Json.insert] at h
  exact ⟨j', hj', (Option.some.inj h).symm⟩

theorem arrayToJson_cons {values : List (AnyValue δ)} {js : List (Json δ)}
    (h : arrayToJson (a :: values) = some js) :
    ∃ j js', a.toJson = some j ∧ arrayToJson values = some js' ∧ js = j :: js' := by
  rw [arrayToJson] at h
  obtain ⟨j, hj, h⟩ := Option.bind_eq_some_iff.1 h
  obtain ⟨js', hjs', h⟩ := Option.bind_eq_some_iff.1 h
  exact ⟨j, js', hj, hjs', (Option.some.inj h).symm⟩

theorem listToJson_cons {x : KeyValue δ} {values : List (KeyValue δ)} {js : List (Json δ)}
    (h : listToJson (x :: values) = some js) :
    ∃ j js', x.toJson = some j ∧ listToJson values = some js' ∧ js = j :: js' := by
  rw [listToJson] at h
  obtain ⟨j, hj, h⟩ := Option.bind_eq_some_iff.1 h
  obtain ⟨js', hjs', h⟩ := Option.bind_eq_some_iff.1 h
  exact ⟨j, js', hj, hjs', (Option.some.inj h).symm⟩

/-- The key of the only member tells the kind. -/
theorem exists_member (h : a.toJson = some j) : ∃ value, j = .object [(a.kind.key, value)] := by
  cases a with
  | arrayValue values =>
    obtain ⟨js, -, rfl⟩ := toJson_arrayValue h
    exact ⟨_, rfl⟩
  | keyValueList values =>
    obtain ⟨js, -, rfl⟩ := toJson_keyValueList h
    exact ⟨_, rfl⟩
  | bytes data =>
    obtain ⟨encoded, -, rfl⟩ := toJson_bytes h
    exact ⟨_, rfl⟩
  | _ =>
    rw [AnyValue.toJson] at h
    exact ⟨_, (Option.some.inj h).symm⟩

theorem kind_eq (ha : a.toJson = some j) (hb : b.toJson = some j) : a.kind = b.kind := by
  obtain ⟨value, rfl⟩ := exists_member ha
  obtain ⟨value', heq⟩ := exists_member hb
  injection heq with heq
  exact Kind.key_injective (congrArg Prod.fst (List.cons.inj heq).1)

end Members

/-! ## Bytes -/

/-- Bytes are encoded by an encoding with padding, whose texts are different for different bytes. -/
theorem exists_encoding : ∃ enc : Base64.Encoding, enc.Lawful ∧ enc.padchar ≠ 0 ∧
    ∀ data : ByteVector, encodeBytes data.1 = some (enc.text data.1) := by
  obtain ⟨enc, henc, hlawful⟩ := Base64.encoding_lawful Base64.standardAlphabet_injective
    Base64.standardAlphabet_lt (.inr ⟨(by decide : ch '=' < 128), Base64.standardAlphabet_ne⟩)
  have hpad : enc.padchar ≠ 0 := by
    rw [Base64.encoding] at henc
    split at henc
    · cases henc
    · cases henc
      exact (by decide : ch '=' ≠ 0)
  refine ⟨enc, hlawful, hpad, fun data => ?_⟩
  rw [encodeBytes, henc]
  exact Base64.Encoding.encode_of_length (Base64.Encoding.length_text_padded hpad data.2)

theorem eq_of_encodeBytes {data data' : ByteVector} {encoded : Bytes} (h : encodeBytes data.1 = some encoded)
    (h' : encodeBytes data'.1 = some encoded) : data = data' := by
  obtain ⟨enc, hlawful, hpad, hencode⟩ := exists_encoding
  rw [hencode] at h h'
  exact Subtype.ext (hlawful.text_injective hpad (Option.some.inj (h.trans h'.symm)))

/-! ## Values -/

mutual

/-- Values with the same JSON are of the same kind, and have the same in them. -/
theorem AnyValue.eq_of_toJson (a b : AnyValue δ) (j : Json δ) (ha : a.toJson = some j) (hb : b.toJson = some j) :
    a = b := by
  have hkind := kind_eq ha hb
  cases a with
  | arrayValue values =>
    cases b with
    | arrayValue values' =>
      obtain ⟨js, hjs, rfl⟩ := toJson_arrayValue ha
      obtain ⟨js', hjs', heq⟩ := toJson_arrayValue hb
      cases heq
      rw [eq_of_arrayToJson values values' js hjs hjs']
    | _ => cases hkind
  | keyValueList values =>
    cases b with
    | keyValueList values' =>
      obtain ⟨js, hjs, rfl⟩ := toJson_keyValueList ha
      obtain ⟨js', hjs', heq⟩ := toJson_keyValueList hb
      cases heq
      rw [eq_of_listToJson values values' js hjs hjs']
    | _ => cases hkind
  | bytes data =>
    cases b with
    | bytes data' =>
      obtain ⟨encoded, hencoded, rfl⟩ := toJson_bytes ha
      obtain ⟨encoded', hencoded', heq⟩ := toJson_bytes hb
      cases heq
      rw [eq_of_encodeBytes hencoded hencoded']
    | _ => cases hkind
  | _ =>
    -- The member is what is in the value.
    cases b <;> cases hkind
    rw [AnyValue.toJson] at ha hb
    cases ha
    cases hb
    rfl

theorem KeyValue.eq_of_toJson (x y : KeyValue δ) (j : Json δ) (hx : x.toJson = some j) (hy : y.toJson = some j) :
    x = y := by
  cases x with
  | mk key a =>
    cases y with
    | mk key' b =>
      obtain ⟨j', ha, rfl⟩ := toJson_keyValue hx
      obtain ⟨j'', hb, heq⟩ := toJson_keyValue hy
      cases heq
      rw [AnyValue.eq_of_toJson a b j' ha hb]

theorem eq_of_arrayToJson (values values' : List (AnyValue δ)) (js : List (Json δ))
    (h : arrayToJson values = some js) (h' : arrayToJson values' = some js) : values = values' := by
  cases values with
  | nil =>
    cases values' with
    | nil => rfl
    | cons b bs =>
      obtain ⟨j, js', -, -, rfl⟩ := arrayToJson_cons h'
      cases h
  | cons a as =>
    obtain ⟨j, js', ha, has, rfl⟩ := arrayToJson_cons h
    cases values' with
    | nil => cases h'
    | cons b bs =>
      obtain ⟨j', js'', hb, hbs, heq⟩ := arrayToJson_cons h'
      cases heq
      rw [AnyValue.eq_of_toJson a b j ha hb, eq_of_arrayToJson as bs js' has hbs]

theorem eq_of_listToJson (values values' : List (KeyValue δ)) (js : List (Json δ))
    (h : listToJson values = some js) (h' : listToJson values' = some js) : values = values' := by
  cases values with
  | nil =>
    cases values' with
    | nil => rfl
    | cons y ys =>
      obtain ⟨j, js', -, -, rfl⟩ := listToJson_cons h'
      cases h
  | cons x xs =>
    obtain ⟨j, js', hx, hxs, rfl⟩ := listToJson_cons h
    cases values' with
    | nil => cases h'
    | cons y ys =>
      obtain ⟨j', js'', hy, hys, heq⟩ := listToJson_cons h'
      cases heq
      rw [KeyValue.eq_of_toJson x y j hx hy, eq_of_listToJson xs ys js' hxs hys]

end

mutual

/-- Every value has a JSON. -/
theorem AnyValue.isSome_toJson (a : AnyValue δ) : a.toJson.isSome := by
  cases a with
  | arrayValue values =>
    obtain ⟨js, hjs⟩ := Option.isSome_iff_exists.1 (isSome_arrayToJson values)
    rw [AnyValue.toJson, hjs]
    rfl
  | keyValueList values =>
    obtain ⟨js, hjs⟩ := Option.isSome_iff_exists.1 (isSome_listToJson values)
    rw [AnyValue.toJson, hjs]
    rfl
  | bytes data =>
    obtain ⟨enc, -, -, hencode⟩ := exists_encoding
    rw [AnyValue.toJson, hencode]
    rfl
  | _ =>
    rw [AnyValue.toJson]
    rfl

theorem KeyValue.isSome_toJson (x : KeyValue δ) : x.toJson.isSome := by
  cases x with
  | mk key a =>
    obtain ⟨j, hj⟩ := Option.isSome_iff_exists.1 a.isSome_toJson
    rw [KeyValue.toJson, hj]
    rfl

theorem isSome_arrayToJson (values : List (AnyValue δ)) : (arrayToJson values).isSome := by
  cases values with
  | nil => rfl
  | cons a as =>
    obtain ⟨j, hj⟩ := Option.isSome_iff_exists.1 a.isSome_toJson
    obtain ⟨js, hjs⟩ := Option.isSome_iff_exists.1 (isSome_arrayToJson as)
    rw [arrayToJson, hj, hjs]
    rfl

theorem isSome_listToJson (values : List (KeyValue δ)) : (listToJson values).isSome := by
  cases values with
  | nil => rfl
  | cons x xs =>
    obtain ⟨j, hj⟩ := Option.isSome_iff_exists.1 x.isSome_toJson
    obtain ⟨js, hjs⟩ := Option.isSome_iff_exists.1 (isSome_listToJson xs)
    rw [listToJson, hj, hjs]
    rfl

end

/-- Every value has a JSON, and values with the same JSON are the same. -/
theorem toJson_injective :
    (∀ a : AnyValue δ, a.toJson.isSome) ∧
      ∀ (a b : AnyValue δ) (j : Json δ), a.toJson = some j → b.toJson = some j → a = b :=
  ⟨AnyValue.isSome_toJson, AnyValue.eq_of_toJson⟩

/-- An array with a list in it that has bytes. -/
theorem toJson_injective_nested :
    let a : AnyValue ℕ :=
      .arrayValue [.string (sv "x"), .keyValueList [.mk (sv "k") (.bytes ⟨sv "foo", by decide⟩)]]
    ∃ j, a.toJson = some j ∧ ∀ b : AnyValue ℕ, b.toJson = some j → b = a := by
  intro a
  obtain ⟨j, hj⟩ := Option.isSome_iff_exists.1 (toJson_injective.1 a)
  exact ⟨j, hj, fun b hb => toJson_injective.2 b a j hb hj⟩

end Cppnet.Otel
