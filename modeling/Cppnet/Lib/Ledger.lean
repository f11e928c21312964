import Mathlib.Data.List.Basic

/-!
# Ledgers

Resources with owners. A resource is numbered when it comes up, and then held by its owner, who can pass it on, close
it, or lose it; no owner has two. A ledger says of each resource what has become of it, and `Ledger.step` what may
happen next (`Event`): nothing is done by anyone but the owner.

* `count_closed`: by events that a ledger takes, no resource is closed more than once, and the ledger says which ones
  were; `lost_mem_iff`: it says if one was lost.
-/

namespace Lib

/-- What has become of a resource. -/
inductive Status (τ : Type*)
  | held (x : τ)
  | closed
  | lost
  deriving DecidableEq

/-- What happens to a resource. A new one is `made` for an owner, or `dropped` at once; what is closed by an owner may
    be none of the resources (`stray`). -/
inductive Event (τ : Type*)
  | made (x : τ)
  | dropped
  | moved (i : ℕ) (y x : τ)
  | closed (i : ℕ) (x : τ)
  | lost (i : ℕ) (x : τ)
  | stray (x : τ)
  deriving DecidableEq

/-- The resources, in the order of their numbers. -/
abbrev Ledger (τ : Type*) := List (Status τ)

namespace Ledger

variable {τ : Type*} [DecidableEq τ] {l l' : Ledger τ} {i : ℕ}

/-- What may happen. -/
def step (l : Ledger τ) : Event τ → Option (Ledger τ)
  | .made x => if .held x ∈ l then none else some (l ++ [.held x])
  | .dropped => some (l ++ [.lost])
  | .moved i y x => if l[i]? = some (.held y) ∧ .held x ∉ l then some (l.set i (.held x)) else none
  | .closed i x => if l[i]? = some (.held x) then some (l.set i .closed) else none
  | .lost i x => if l[i]? = some (.held x) then some (l.set i .lost) else none
  | .stray _ => none

/-- Events, one after another. -/
def take (l : Ledger τ) (es : List (Event τ)) : Option (Ledger τ) := es.foldlM step l

theorem take_append_eq_some {es es' : List (Event τ)} {l₁ : Ledger τ} (h : l.take es = some l₁)
    (h' : l₁.take es' = some l') : l.take (es ++ es') = some l' := by
  rw [take, List.foldlM_append]
  exact Option.bind_eq_some_iff.2 ⟨l₁, h, h'⟩

theorem take_cons_eq_some {e : Event τ} {es : List (Event τ)} :
    l.take (e :: es) = some l' ↔ ∃ l₁, l.step e = some l₁ ∧ l₁.take es = some l' := by
  rw [take, List.foldlM_cons]
  exact Option.bind_eq_some_iff

theorem take_singleton {e : Event τ} (h : l.step e = some l') : l.take [e] = some l' :=
  take_cons_eq_some.2 ⟨l', h, rfl⟩

/-! ## What is closed -/

/-- The event closes the resource with the number `i`. -/
def closes (i : ℕ) : Event τ → Bool
  | .closed j _ => j = i
  | _ => false

omit [DecidableEq τ] in
theorem concat_closed_iff {st : Status τ} (hst : st ≠ .closed) :
    (l ++ [st])[i]? = some .closed ↔ l[i]? = some .closed := by
  rw [List.getElem?_append]
  split_ifs with hi
  · rfl
  · refine iff_of_false (fun h => hst ?_) fun h => hi (List.getElem?_eq_some_iff.1 h).1
    exact List.mem_singleton.1 (List.mem_of_getElem? h) |>.symm

omit [DecidableEq τ] in
theorem set_closed_iff {st st' : Status τ} {j : ℕ} (hj : l[j]? = some st) :
    (l.set j st')[i]? = some .closed ↔ if j = i then st' = .closed else l[i]? = some .closed := by
  split_ifs with hji
  · subst hji
    rw [List.getElem?_set_self (List.getElem?_eq_some_iff.1 hj).1, Option.some_inj]
  · rw [List.getElem?_set_ne hji]

/-- What was not closed, and is closed by the event. -/
theorem step_closed {e : Event τ} (h : l.step e = some l') :
    (if l'[i]? = some .closed then 1 else 0) =
      (if closes i e then 1 else 0) + if l[i]? = some .closed then 1 else 0 := by
  have hne : ∀ x : τ, Status.held x ≠ .closed := fun x h => by cases h
  cases e with
  | made x =>
    rw [step, ite_eq_iff] at h
    obtain ⟨-, h⟩ | ⟨-, h⟩ := h <;> cases h
    simp [closes, concat_closed_iff (hne x)]
  | dropped =>
    cases h
    have hlost : (.lost : Status τ) ≠ .closed := fun h => by cases h
    simp [closes, concat_closed_iff hlost]
  | moved j y x =>
    obtain ⟨⟨hj, -⟩, h⟩ := Option.ite_none_right_eq_some.1 h
    cases h
    simp only [set_closed_iff hj, closes]
    split_ifs with hji <;> simp_all
  | closed j x =>
    obtain ⟨hj, h⟩ := Option.ite_none_right_eq_some.1 h
    cases h
    simp only [set_closed_iff hj, closes]
    split_ifs with hji <;> simp_all
  | lost j x =>
    obtain ⟨hj, h⟩ := Option.ite_none_right_eq_some.1 h
    cases h
    simp only [set_closed_iff hj, closes]
    split_ifs with hji <;> simp_all
  | stray x => cases h

/-- No resource is closed more than once. -/
theorem count_closed {es : List (Event τ)} (h : l.take es = some l') :
    (if l'[i]? = some .closed then 1 else 0) =
      es.countP (closes i) + if l[i]? = some .closed then 1 else 0 := by
  induction es generalizing l with
  | nil =>
    cases h
    simp
  | cons e es ih =>
    obtain ⟨l₁, hstep, h⟩ := take_cons_eq_some.1 h
    rw [ih h, step_closed hstep, List.countP_cons]
    omega

/-! ## What is lost -/

/-- The event loses a resource. -/
def loses : Event τ → Bool
  | .dropped => true
  | .lost _ _ => true
  | _ => false

omit [DecidableEq τ] in
theorem lost_mem_set_iff {x : τ} {st : Status τ} (hi : l[i]? = some (.held x)) :
    .lost ∈ l.set i st ↔ .lost ∈ l ∨ st = .lost := by
  have hlt := (List.getElem?_eq_some_iff.1 hi).1
  constructor
  · intro h
    exact (List.mem_or_eq_of_mem_set h).imp_right Eq.symm
  · rintro (h | rfl)
    · obtain ⟨j, hj⟩ := List.mem_iff_getElem?.1 h
      refine List.mem_iff_getElem?.2 ⟨j, ?_⟩
      rw [List.getElem?_set_ne, hj]
      rintro rfl
      cases hi.symm.trans hj
    · exact List.mem_set hlt _

theorem step_lost {e : Event τ} (h : l.step e = some l') : .lost ∈ l' ↔ .lost ∈ l ∨ loses e := by
  cases e with
  | made x =>
    rw [step, ite_eq_iff] at h
    obtain ⟨-, h⟩ | ⟨-, h⟩ := h <;> cases h
    simp [loses]
  | dropped =>
    cases h
    simp [loses]
  | moved j y x =>
    obtain ⟨⟨hj, -⟩, h⟩ := Option.ite_none_right_eq_some.1 h
    cases h
    simp [lost_mem_set_iff hj, loses]
  | closed j x =>
    obtain ⟨hj, h⟩ := Option.ite_none_right_eq_some.1 h
    cases h
    simp [lost_mem_set_iff hj, loses]
  | lost j x =>
    obtain ⟨hj, h⟩ := Option.ite_none_right_eq_some.1 h
    cases h
    simp [lost_mem_set_iff hj, loses]
  | stray x => cases h

/-- What is lost stays lost. -/
theorem lost_mem_iff {es : List (Event τ)} (h : l.take es = some l') : .lost ∈ l' ↔ .lost ∈ l ∨ es.any loses := by
  induction es generalizing l with
  | nil =>
    cases h
    simp
  | cons e es ih =>
    obtain ⟨l₁, hstep, h⟩ := take_cons_eq_some.1 h
    rw [ih h, step_lost hstep, List.any_cons, Bool.or_eq_true, or_assoc]

end Ledger

end Lib
