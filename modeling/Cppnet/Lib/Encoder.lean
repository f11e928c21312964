import Mathlib.Data.List.Basic
import Mathlib.Data.List.Forall2
import Mathlib.Data.List.Nodup

/-!
# Encoders

An encoder gives the code of a value, or fails. It keeps a part of the values if it never fails, and the codes of two
values are the same exactly when this part of them is (`Keeps`): the code says all of the part, and nothing else.

A record is encoded into a map, by an assignment to a key for each of its fields (`assignAll`); a field may be left
out. What is found under the keys are the assignments (`find?_assignAll`), so the map keeps what they keep, if no key
is assigned twice (`Keeps.record`).
-/

namespace Lib

variable {α β γ ρ σ K V M : Type*}

/-- The codes say the given part of the values, and nothing else. -/
structure Keeps (encode : α → Option β) (part : α → ρ) : Prop where
  isSome : ∀ a, (encode a).isSome
  eq_iff : ∀ a b, encode a = encode b ↔ part a = part b

theorem map_eq_map_iff (f : α → β) (as bs : List α) :
    as.map f = bs.map f ↔ List.Forall₂ (fun a b => f a = f b) as bs := by
  rw [← List.forall₂_eq_eq_eq, List.forall₂_map_left_iff, List.forall₂_map_right_iff]

namespace Keeps

variable {encode : α → Option β} {part : α → ρ}

theorem ne_none (h : Keeps encode part) (a : α) : encode a ≠ none := Option.isSome_iff_ne_none.1 (h.isSome a)

theorem of_injective {f : α → β} (hf : f.Injective) : Keeps (fun a => some (f a)) id where
  isSome _ := rfl
  eq_iff _ _ := Option.some_inj.trans hf.eq_iff

theorem map (h : Keeps encode part) {f : β → γ} (hf : f.Injective) : Keeps (fun a => (encode a).map f) part where
  isSome a := by
    rw [Option.isSome_map]
    exact h.isSome a
  eq_iff a b := (Option.map_injective hf).eq_iff.trans (h.eq_iff a b)

theorem exists_code (h : Keeps encode part) : ∃ code : α → β, encode = fun a => some (code a) :=
  ⟨fun a => (encode a).get (h.isSome a), funext fun a => (Option.some_get (h.isSome a)).symm⟩

/-- Lists are encoded value by value. -/
theorem mapM (h : Keeps encode part) : Keeps (List.mapM encode) (List.map part) := by
  obtain ⟨code, rfl⟩ := h.exists_code
  have hmapM : ∀ as : List α, as.mapM (fun a => some (code a)) = some (as.map code) := by
    intro as
    induction as with
    | nil => rfl
    | cons a as ih =>
      rw [List.mapM_cons, ih]
      rfl
  refine ⟨fun as => by rw [hmapM]; rfl, fun as bs => ?_⟩
  rw [hmapM, hmapM, Option.some_inj, map_eq_map_iff, map_eq_map_iff]
  have hcode : (fun a b => code a = code b) = fun a b => part a = part b := by
    ext a b
    exact Option.some_inj.symm.trans (h.eq_iff a b)
  rw [hcode]

end Keeps

/-! ## Records -/

/-- An assignment to a key, of a value that its encoder may fail to give; or none. -/
structure Assignment (K V : Type*) where
  key : K
  value : Option (Option V)

namespace Assignment

/-- A value is assigned. -/
def set (key : K) (value : Option V) : Assignment K V := ⟨key, some value⟩

/-- A value is assigned under a condition. -/
def when (c : Prop) [Decidable c] (key : K) (value : Option V) : Assignment K V :=
  ⟨key, if c then some value else none⟩

/-- A value is assigned if there is one. -/
def has (value : Option α) (key : K) (encode : α → Option V) : Assignment K V := ⟨key, value.map encode⟩

/-- A value is assigned to one of several keys. -/
def oneOf [DecidableEq K] (keys : List K) (member : K × Option V) : List (Assignment K V) :=
  keys.map fun key => when (key = member.1) key member.2

variable {key : K} {encode : α → Option V} {part : α → ρ}

theorem set_inj {value value' : Option V} : set key value = set key value' ↔ value = value' := by simp [set]

theorem has_eq_iff (h : Keeps encode part) {o o' : Option α} :
    has o key encode = has o' key encode ↔ o.map part = o'.map part := by
  cases o <;> cases o' <;> simp [has, h.eq_iff]

/-- What is left out is one value. -/
theorem when_ne_eq_iff [DecidableEq α] (h : Keeps encode id) {d a b : α} :
    when (a ≠ d) key (encode a) = when (b ≠ d) key (encode b) ↔ a = b := by
  by_cases ha : a = d
  · by_cases hb : b = d
    · simp [when, ha, hb]
    · simp [when, ha, hb, Ne.symm hb]
  · by_cases hb : b = d
    · simp [when, ha, hb]
    · simp [when, ha, hb, h.eq_iff]

end Assignment

/-- Assignments to the same keys for all values, which keep a part of the values. -/
structure KeepsFields (keys : List K) (fields : α → List (Assignment K V)) (part : α → ρ) : Prop where
  map_key : ∀ a, (fields a).map Assignment.key = keys
  ne_none : ∀ a, ∀ x ∈ fields a, x.value ≠ some none
  eq_iff : ∀ a b, fields a = fields b ↔ part a = part b

namespace KeepsFields

variable {keys : List K} {part : α → ρ}

theorem append_eq_iff {fields : α → List (Assignment K V)} (h : KeepsFields keys fields part) {a b : α}
    {as bs : List (Assignment K V)} : fields a ++ as = fields b ++ bs ↔ part a = part b ∧ as = bs := by
  have hlength : ∀ a, (fields a).length = keys.length := fun a => by rw [← h.map_key a, List.length_map]
  rw [List.append_eq_append_iff_of_size_eq_left ((hlength a).trans (hlength b).symm), h.eq_iff]

/-- The key that is assigned is kept, and the value. -/
theorem oneOf [DecidableEq K] {member : α → K × Option V} (hkey : ∀ a, (member a).1 ∈ keys)
    (hvalue : ∀ a, (member a).2 ≠ none) (heq : ∀ a b, member a = member b ↔ part a = part b) :
    KeepsFields keys (fun a => Assignment.oneOf keys (member a)) part where
  map_key a := by
    rw [Assignment.oneOf, List.map_map]
    exact List.map_id keys
  ne_none a := by
    refine List.forall_mem_map.2 fun key _ => ?_
    rw [Assignment.when]
    split_ifs
    · exact fun h => hvalue a (Option.some.inj h)
    · exact (Option.some_ne_none _).symm
  eq_iff a b := by
    rw [← heq, Assignment.oneOf, Assignment.oneOf, List.map_inj_left]
    refine ⟨fun h => ?_, fun h _ _ => by rw [h]⟩
    have hat := congrArg Assignment.value (h _ (hkey a))
    by_cases hne : (member a).1 = (member b).1
    · rw [Assignment.when, Assignment.when, if_pos rfl, if_pos hne] at hat
      exact Prod.ext hne (Option.some.inj hat)
    · rw [Assignment.when, Assignment.when, if_pos rfl, if_neg hne] at hat
      cases hat

end KeepsFields

/-- A map to which values can be assigned, unless it refuses them. -/
class Assignable (M : Type*) (K V : outParam (Type*)) where
  find? : M → K → Option V
  assign : M → K → V → Option M
  Accepts : M → Prop

open Assignable

/-- Assignments, one after another. -/
def assignAll [Assignable M K V] (m : M) : List (Assignment K V) → Option M
  | [] => some m
  | a :: as =>
    match a.value with
    | none => assignAll m as
    | some value => value.bind fun v => (assign m a.key v).bind fun m' => assignAll m' as

/-- What is assigned is found, and everything else as before. -/
class LawfulAssignable (M : Type*) {K V : outParam (Type*)} [DecidableEq K] [Assignable M K V] : Prop where
  exists_assign {m : M} (hm : Accepts m) (k : K) (v : V) : ∃ m', assign m k v = some m' ∧ Accepts m'
  find?_assign {m m' : M} {k : K} {v : V} (h : assign m k v = some m') (k' : K) :
    find? m' k' = if k' = k then some v else find? m k'

section Records

variable [DecidableEq K] [Assignable M K V] [LawfulAssignable M] {m m' : M} {a : Assignment K V}
  {as bs : List (Assignment K V)}

/-- The first assignment, and the others. -/
theorem assignAll_cons (h : assignAll m (a :: as) = some m') :
    ∃ m₁, assignAll m₁ as = some m' ∧ a.value ≠ some none ∧
      ∀ k, find? m₁ k = if k = a.key then a.value.getD (find? m k) else find? m k := by
  obtain ⟨key, value⟩ := a
  cases value with
  | none =>
    refine ⟨m, h, (Option.some_ne_none _).symm, fun k => ?_⟩
    split_ifs with hk
    · rw [hk]
      rfl
    · rfl
  | some value =>
    obtain ⟨v, rfl, h⟩ := Option.bind_eq_some_iff.1 h
    obtain ⟨m₁, hassign, h⟩ := Option.bind_eq_some_iff.1 h
    exact ⟨m₁, h, by simp, LawfulAssignable.find?_assign hassign⟩

theorem find?_assignAll_of_not_mem (h : assignAll m as = some m') {k : K} (hk : k ∉ as.map Assignment.key) :
    find? m' k = find? m k := by
  induction as generalizing m with
  | nil =>
    cases h
    rfl
  | cons a as ih =>
    obtain ⟨m₁, h, -, hfind⟩ := assignAll_cons h
    rw [List.map_cons, List.mem_cons, not_or] at hk
    rw [ih h hk.2, hfind, if_neg hk.1]

/-- What is found under the key of an assignment. -/
theorem find?_assignAll (h : assignAll m as = some m') (hnodup : (as.map Assignment.key).Nodup) (ha : a ∈ as) :
    a.value ≠ some none ∧ find? m' a.key = a.value.getD (find? m a.key) := by
  induction as generalizing m with
  | nil => cases ha
  | cons b as ih =>
    obtain ⟨m₁, h₁, hvalue, hfind⟩ := assignAll_cons h
    rw [List.map_cons, List.nodup_cons] at hnodup
    rcases List.mem_cons.1 ha with rfl | ha
    · refine ⟨hvalue, ?_⟩
      rw [find?_assignAll_of_not_mem h₁ hnodup.1, hfind, if_pos rfl]
    · obtain ⟨hvalue, hfound⟩ := ih h₁ hnodup.2 ha
      have hne : a.key ≠ b.key := fun hkey => hnodup.1 (hkey ▸ List.mem_map_of_mem ha)
      exact ⟨hvalue, by rw [hfound, hfind, if_neg hne]⟩

/-- The assignments to a map without entries are what is found in it. -/
theorem eq_map_of_assignAll (h : assignAll m as = some m') (hempty : ∀ k, find? m k = none)
    (hnodup : (as.map Assignment.key).Nodup) :
    as = (as.map Assignment.key).map fun k => ⟨k, (find? m' k).map some⟩ := by
  rw [List.map_map]
  refine (List.map_id as).symm.trans (List.map_congr_left fun a ha => ?_)
  obtain ⟨hvalue, hfound⟩ := find?_assignAll h hnodup ha
  obtain ⟨key, value⟩ := a
  rw [Function.comp_apply, hfound, hempty]
  rcases value with _ | _ | v
  · rfl
  · exact absurd rfl hvalue
  · rfl

theorem exists_assignAll (hm : Accepts m) (hvalues : ∀ a ∈ as, a.value ≠ some none) :
    ∃ m', assignAll m as = some m' := by
  induction as generalizing m with
  | nil => exact ⟨m, rfl⟩
  | cons a as ih =>
    obtain ⟨key, value⟩ := a
    rw [List.forall_mem_cons] at hvalues
    rcases value with _ | _ | v
    · exact ih hm hvalues.2
    · exact absurd rfl hvalues.1
    · obtain ⟨m₁, hassign, hm₁⟩ := LawfulAssignable.exists_assign hm key v
      obtain ⟨m', h⟩ := ih hm₁ hvalues.2
      refine ⟨m', ?_⟩
      change (assign m key v).bind (assignAll · as) = some m'
      rw [hassign]
      exact h

/-- A record keeps what the assignments for it keep. -/
theorem Keeps.record (hm : Accepts m) (hempty : ∀ k, find? m k = none) {keys : List K} (hnodup : keys.Nodup)
    {fields : α → List (Assignment K V)} {part : α → ρ} (h : KeepsFields keys fields part) :
    Keeps (fun a => assignAll m (fields a)) part where
  isSome a := Option.isSome_iff_exists.2 (exists_assignAll hm (h.ne_none a))
  eq_iff a b := by
    refine Iff.trans ⟨fun heq => ?_, congrArg _⟩ (h.eq_iff a b)
    obtain ⟨m', ha⟩ := exists_assignAll hm (h.ne_none a)
    rw [eq_map_of_assignAll ha hempty ((h.map_key a).symm ▸ hnodup),
      eq_map_of_assignAll (heq.symm.trans ha) hempty ((h.map_key b).symm ▸ hnodup), h.map_key, h.map_key]

end Records

end Lib
