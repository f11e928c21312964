import Mathlib.Data.List.Forall2
import Mathlib.Tactic.Common

/-!
# Machines

A *machine* is what a program does from the outside: at a state, each action gives an output and a next
state, or it does not (`none`), be it that it is not possible there, or that what it does is undefined. A
*run* is a list of actions, each from the state the one before it leads to (`exec`).

The rules for proofs about all runs are `exec_invariant`, for what every step preserves, and
`exec_simulation`, for a machine that does what another one does. What holds at each of the steps of a run
is said by `Along`, and what holds of each of its states by `Throughout`; `Along.invariant` is the rule for
what is preserved by steps that meet a condition, `throughout_iff_along` the one for a machine that keeps a
property as long as its steps meet a condition, and not any longer, and `exec_iff_along` the one for a
property that does not come back.
-/

namespace Lib

variable {σ τ α ο π : Type*}

section Runs

variable (step : σ → α → Option (ο × σ))

/-- The run of a list of actions: the outputs, and the last state. -/
def exec : σ → List α → Option (List ο × σ)
  | s, [] => some ([], s)
  | s, a :: as => (step s a).bind fun (o, s) => (exec s as).map fun (os, s) => (o :: os, s)

/-- `P` holds at each of the steps of a run, as far as it gets. -/
def Along (P : σ → α → Prop) : σ → List α → Prop
  | _, [] => True
  | s, a :: as => P s a ∧ ∀ o s', step s a = some (o, s') → Along P s' as

instance decidableAlong {P : σ → α → Prop} [∀ s a, Decidable (P s a)] :
    (s : σ) → (as : List α) → Decidable (Along step P s as)
  | _, [] => .isTrue trivial
  | s, a :: as =>
    match h : step s a with
    | none => decidable_of_iff (P s a) ⟨fun hP => ⟨hP, fun _ _ h' => nomatch h.symm.trans h'⟩, And.left⟩
    | some (o, s') =>
      have : Decidable (Along step P s' as) := decidableAlong s' as
      decidable_of_iff (P s a ∧ Along step P s' as)
        ⟨fun hP => ⟨hP.1, fun _ _ h' => by cases h.symm.trans h'; exact hP.2⟩, fun hP => ⟨hP.1, hP.2 o s' h⟩⟩

/-- A run gets to its end, and `P` holds of each of its states. -/
def Throughout (P : σ → Prop) (s : σ) (as : List α) : Prop :=
  ∀ as', as' <+: as → ∃ os s', exec step s as' = some (os, s') ∧ P s'

variable {step}

@[simp] theorem exec_nil (s : σ) : exec step s [] = some ([], s) := rfl

theorem exec_cons_eq_some {s s' : σ} {a : α} {as : List α} {os : List ο} :
    exec step s (a :: as) = some (os, s') ↔
      ∃ o s₁ os', step s a = some (o, s₁) ∧ exec step s₁ as = some (os', s') ∧ os = o :: os' := by
  rw [exec, Option.bind_eq_some_iff]
  constructor
  · rintro ⟨⟨o, s₁⟩, hstep, h⟩
    obtain ⟨⟨os', s₂⟩, hexec, heq⟩ := Option.map_eq_some_iff.1 h
    cases heq
    exact ⟨o, s₁, os', hstep, hexec, rfl⟩
  · rintro ⟨o, s₁, os', hstep, hexec, rfl⟩
    exact ⟨(o, s₁), hstep, Option.map_eq_some_iff.2 ⟨_, hexec, rfl⟩⟩

/-- A machine that is never stuck gets to the end of every run. -/
theorem exists_exec (hstep : ∀ s a, ∃ o s', step s a = some (o, s')) (s : σ) (as : List α) :
    ∃ os s', exec step s as = some (os, s') := by
  induction as generalizing s with
  | nil => exact ⟨[], s, rfl⟩
  | cons a as ih =>
    obtain ⟨o, s₁, hs₁⟩ := hstep s a
    obtain ⟨os, s', hexec⟩ := ih s₁
    exact ⟨o :: os, s', exec_cons_eq_some.2 ⟨o, s₁, os, hs₁, hexec, rfl⟩⟩

/-- What every step preserves holds after every run. -/
theorem exec_invariant (Inv : σ → Prop)
    (hstep : ∀ s a o s', Inv s → step s a = some (o, s') → Inv s') {s s' : σ} {as : List α}
    {os : List ο} (hs : Inv s) (h : exec step s as = some (os, s')) : Inv s' := by
  induction as generalizing s os with
  | nil =>
    cases h
    exact hs
  | cons a as ih =>
    obtain ⟨o, s₁, os', hs₁, hrest, -⟩ := exec_cons_eq_some.1 h
    exact ih (hstep s a o s₁ hs hs₁) hrest

/-- What every step outputs, from a state of an invariant, holds of all outputs of a run. -/
theorem exec_outputs (Inv : σ → Prop) {Q : ο → Prop}
    (hstep : ∀ s a o s', Inv s → step s a = some (o, s') → Q o ∧ Inv s') {s s' : σ} {as : List α}
    {os : List ο} (hs : Inv s) (h : exec step s as = some (os, s')) : ∀ o ∈ os, Q o := by
  induction as generalizing s os with
  | nil =>
    cases h
    simp
  | cons a as ih =>
    obtain ⟨o, s₁, os', hs₁, hrest, rfl⟩ := exec_cons_eq_some.1 h
    obtain ⟨ho, hinv⟩ := hstep s a o s₁ hs hs₁
    rw [List.forall_mem_cons]
    exact ⟨ho, ih hinv hrest⟩

/-- What every step that meets a condition preserves holds after every run whose steps meet it. -/
theorem Along.invariant (Inv : σ → Prop) {C : σ → α → Prop}
    (hstep : ∀ s a o s', Inv s → C s a → step s a = some (o, s') → Inv s') {s s' : σ} {as : List α}
    {os : List ο} (hs : Inv s) (hC : Along step C s as) (h : exec step s as = some (os, s')) : Inv s' := by
  induction as generalizing s os with
  | nil =>
    cases h
    exact hs
  | cons a as ih =>
    obtain ⟨o, s₁, os', hs₁, hrest, -⟩ := exec_cons_eq_some.1 h
    exact ih (hstep s a o s₁ hs hC.1 hs₁) (hC.2 o s₁ hs₁) hrest

/-- What every step that meets a condition outputs holds of all outputs of a run whose steps meet it. -/
theorem Along.outputs (Inv : σ → Prop) {C : σ → α → Prop} {Q : ο → Prop}
    (hstep : ∀ s a o s', Inv s → C s a → step s a = some (o, s') → Q o ∧ Inv s') {s s' : σ} {as : List α}
    {os : List ο} (hs : Inv s) (hC : Along step C s as) (h : exec step s as = some (os, s')) : ∀ o ∈ os, Q o := by
  induction as generalizing s os with
  | nil =>
    cases h
    simp
  | cons a as ih =>
    obtain ⟨o, s₁, os', hs₁, hrest, rfl⟩ := exec_cons_eq_some.1 h
    obtain ⟨ho, hinv⟩ := hstep s a o s₁ hs hC.1 hs₁
    rw [List.forall_mem_cons]
    exact ⟨ho, ih hinv (hC.2 o s₁ hs₁) hrest⟩

/-- Conditions that are the same from the states of an invariant. -/
theorem along_congr (Inv : σ → Prop) {P C : σ → α → Prop} (hiff : ∀ s a, Inv s → (P s a ↔ C s a))
    (hstep : ∀ s a o s', Inv s → C s a → step s a = some (o, s') → Inv s') {s : σ} {as : List α}
    (hs : Inv s) : Along step P s as ↔ Along step C s as := by
  induction as generalizing s with
  | nil => exact Iff.rfl
  | cons a as ih =>
    rw [Along, Along, hiff s a hs]
    refine and_congr_right fun hC => ?_
    exact forall₂_congr fun o s' => forall_congr' fun hs' => ih (hstep s a o s' hs hC hs')

/-- A condition on the actions only. -/
theorem along_of_forall {C : α → Prop} {as : List α} (h : ∀ a ∈ as, C a) (s : σ) :
    Along step (fun _ a => C a) s as := by
  induction as generalizing s with
  | nil => trivial
  | cons a as ih =>
    rw [List.forall_mem_cons] at h
    exact ⟨h.1, fun _ s' _ => ih h.2 s'⟩

theorem throughout_nil {P : σ → Prop} {s : σ} : Throughout step P s [] ↔ P s := by
  constructor
  · intro h
    obtain ⟨os, s', hexec, hP⟩ := h [] List.prefix_rfl
    cases hexec
    exact hP
  · rintro h as' has'
    rw [List.prefix_nil.1 has']
    exact ⟨[], s, rfl, h⟩

theorem throughout_cons {P : σ → Prop} {s : σ} {a : α} {as : List α} :
    Throughout step P s (a :: as) ↔
      P s ∧ ∃ o s', step s a = some (o, s') ∧ Throughout step P s' as := by
  constructor
  · intro h
    obtain ⟨os, s', hexec, hP⟩ := h [] List.nil_prefix
    cases hexec
    obtain ⟨os, s', hexec, -⟩ := h [a] ⟨as, rfl⟩
    obtain ⟨o, s₁, -, hstep, -, -⟩ := exec_cons_eq_some.1 hexec
    refine ⟨hP, o, s₁, hstep, fun as' has' => ?_⟩
    obtain ⟨os, s', hexec, hP'⟩ := h (a :: as') ((List.prefix_cons_inj a).2 has')
    obtain ⟨o', s₂, os', hstep', hrest, -⟩ := exec_cons_eq_some.1 hexec
    rw [hstep] at hstep'
    cases hstep'
    exact ⟨os', s', hrest, hP'⟩
  · rintro ⟨hP, o, s₁, hstep, h⟩ as' has'
    rcases List.prefix_cons_iff.1 has' with rfl | ⟨bs, rfl, hbs⟩
    · exact ⟨[], s, rfl, hP⟩
    · obtain ⟨os, s', hexec, hP'⟩ := h bs hbs
      exact ⟨o :: os, s', exec_cons_eq_some.2 ⟨o, s₁, os, hstep, hexec, rfl⟩, hP'⟩

/-- A machine keeps `P` as long as its steps meet the condition `C`, and not any longer. -/
theorem throughout_iff_along (Inv : σ → Prop) {P : σ → Prop} {C : σ → α → Prop} (hP : ∀ s, Inv s → P s)
    (hmet : ∀ s a, Inv s → C s a → ∃ o s', step s a = some (o, s') ∧ Inv s')
    (hnot : ∀ s a o s', Inv s → ¬C s a → step s a = some (o, s') → ¬P s') {s : σ} {as : List α}
    (hs : Inv s) : Throughout step P s as ↔ Along step C s as := by
  induction as generalizing s with
  | nil => exact throughout_nil.trans (iff_of_true (hP s hs) trivial)
  | cons a as ih =>
    rw [throughout_cons, Along]
    by_cases hC : C s a
    · obtain ⟨o, s₁, hstep, hs₁⟩ := hmet s a hs hC
      constructor
      · rintro ⟨-, o', s', hstep', h⟩
        refine ⟨hC, fun o'' s'' hstep'' => ?_⟩
        cases hstep.symm.trans hstep'
        cases hstep.symm.trans hstep''
        exact (ih hs₁).1 h
      · rintro ⟨-, h⟩
        exact ⟨hP s hs, o, s₁, hstep, (ih hs₁).2 (h o s₁ hstep)⟩
    · refine iff_of_false ?_ fun h => hC h.1
      rintro ⟨-, o, s', hstep, h⟩
      obtain ⟨os, s'', hexec, hP'⟩ := h [] List.nil_prefix
      cases hexec
      exact hnot s a o s' hs hC hstep hP'

/-- The states of a run that gets to its end keep `P` as long as its steps meet the condition `C`, and not any
    longer. -/
theorem throughout_iff_along_of_exec (Inv : σ → Prop) {P : σ → Prop} {C : σ → α → Prop}
    (hP : ∀ s, Inv s → P s) (hmet : ∀ s a o s', Inv s → C s a → step s a = some (o, s') → Inv s')
    (hnot : ∀ s a o s', Inv s → ¬C s a → step s a = some (o, s') → ¬P s') {s s' : σ} {as : List α}
    {os : List ο} (hs : Inv s) (h : exec step s as = some (os, s')) :
    Throughout step P s as ↔ Along step C s as := by
  induction as generalizing s os with
  | nil => exact throughout_nil.trans (iff_of_true (hP s hs) trivial)
  | cons a as ih =>
    obtain ⟨o, s₁, os', hstep, hrest, -⟩ := exec_cons_eq_some.1 h
    rw [throughout_cons, Along]
    constructor
    · rintro ⟨-, o', s₂, hstep', hthroughout⟩
      cases hstep.symm.trans hstep'
      have hC : C s a := by
        by_contra hC
        obtain ⟨os'', s₂, hexec, hP'⟩ := hthroughout [] List.nil_prefix
        cases hexec
        exact hnot s a o _ hs hC hstep hP'
      refine ⟨hC, fun o'' s₂ hstep'' => ?_⟩
      cases hstep.symm.trans hstep''
      exact (ih (hmet s a o _ hs hC hstep) hrest).1 hthroughout
    · rintro ⟨hC, halong⟩
      exact ⟨hP s hs, o, s₁, hstep, (ih (hmet s a o s₁ hs hC hstep) hrest).2 (halong o s₁ hstep)⟩

/-- What does not come back once it is lost: it was there before. -/
theorem exec_back {P : σ → Prop} (hback : ∀ s a o s', step s a = some (o, s') → P s' → P s) {s s' : σ}
    {as : List α} {os : List ο} (h : exec step s as = some (os, s')) (hP : P s') : P s := by
  induction as generalizing s os with
  | nil =>
    cases h
    exact hP
  | cons a as ih =>
    obtain ⟨o, s₁, os', hstep, hrest, -⟩ := exec_cons_eq_some.1 h
    exact hback s a o s₁ hstep (ih hrest)

/-- At the end of a run, `P` holds if its steps meet the condition `C`, and only then. -/
theorem exec_iff_along (Inv : σ → Prop) {P : σ → Prop} {C : σ → α → Prop} (hP : ∀ s, Inv s → P s)
    (hmet : ∀ s a o s', Inv s → C s a → step s a = some (o, s') → Inv s')
    (hnot : ∀ s a o s', Inv s → ¬C s a → step s a = some (o, s') → ¬P s')
    (hback : ∀ s a o s', step s a = some (o, s') → P s' → P s) {s s' : σ} {as : List α} {os : List ο}
    (hs : Inv s) (h : exec step s as = some (os, s')) : P s' ↔ Along step C s as := by
  induction as generalizing s os with
  | nil =>
    cases h
    exact iff_of_true (hP _ hs) trivial
  | cons a as ih =>
    obtain ⟨o, s₁, os', hstep, hrest, -⟩ := exec_cons_eq_some.1 h
    rw [Along]
    by_cases hC : C s a
    · refine (ih (hmet s a o s₁ hs hC hstep) hrest).trans ⟨fun h' => ⟨hC, fun o' s₂ hstep' => ?_⟩, ?_⟩
      · cases hstep.symm.trans hstep'
        exact h'
      · exact fun h' => h'.2 o s₁ hstep
    · exact iff_of_false (fun hP' => hnot s a o s₁ hs hC hstep (exec_back hback hrest hP')) fun h' => hC h'.1

/-- It is enough that `P` is never won back from the states of an invariant. -/
theorem exec_iff_along_of_invariant (Inv Good : σ → Prop) {P : σ → Prop} {C : σ → α → Prop}
    (hInv : ∀ s a o s', Inv s → step s a = some (o, s') → Inv s') (hP : ∀ s, Good s → P s)
    (hmet : ∀ s a o s', Good s → C s a → step s a = some (o, s') → Good s')
    (hnot : ∀ s a o s', Inv s → Good s → ¬C s a → step s a = some (o, s') → ¬P s')
    (hback : ∀ s a o s', Inv s → step s a = some (o, s') → P s' → P s) {s s' : σ} {as : List α} {os : List ο}
    (hInv₀ : Inv s) (hs : Good s) (h : exec step s as = some (os, s')) : P s' ↔ Along step C s as := by
  have hiff := exec_iff_along (fun s => Inv s ∧ Good s) (P := fun s => Inv s → P s) (C := C)
    (fun s hs _ => hP s hs.2) (fun s a o s' hs hC hstep => ⟨hInv s a o s' hs.1 hstep, hmet s a o s' hs.2 hC hstep⟩)
    (fun s a o s' hs hC hstep hPs => hnot s a o s' hs.1 hs.2 hC hstep (hPs (hInv s a o s' hs.1 hstep)))
    (fun s a o s' hstep hPs hInvs => hback s a o s' hInvs hstep (hPs (hInv s a o s' hInvs hstep))) ⟨hInv₀, hs⟩ h
  exact ⟨fun hPs => hiff.1 fun _ => hPs, fun halong => hiff.2 halong (exec_invariant Inv hInv hInv₀ h)⟩

end Runs

/-- A machine does what another one does, if each of its steps does: from related states, to related
    states, with related outputs. -/
theorem exec_simulation {step : σ → α → Option (ο × σ)} {step' : τ → α → Option (π × τ)}
    {R : σ → τ → Prop} {O : ο → π → Prop}
    (hstep : ∀ s t a p t', R s t → step' t a = some (p, t') →
      ∃ o s', step s a = some (o, s') ∧ O o p ∧ R s' t')
    {s : σ} {t t' : τ} {as : List α} {ps : List π} (hR : R s t)
    (h : exec step' t as = some (ps, t')) :
    ∃ os s', exec step s as = some (os, s') ∧ List.Forall₂ O os ps ∧ R s' t' := by
  induction as generalizing s t ps with
  | nil =>
    cases h
    exact ⟨[], s, rfl, .nil, hR⟩
  | cons a as ih =>
    obtain ⟨p, t₁, ps', ht₁, hrest, rfl⟩ := exec_cons_eq_some.1 h
    obtain ⟨o, s₁, hs₁, hO, hR₁⟩ := hstep s t a p t₁ hR ht₁
    obtain ⟨os, s', hexec, hOs, hR'⟩ := ih hR₁ hrest
    exact ⟨o :: os, s', exec_cons_eq_some.2 ⟨o, s₁, os, hs₁, hexec, rfl⟩, .cons hO hOs, hR'⟩

end Lib
