import Cppnet.Lib.Machine
import Cppnet.Lib.NodeList
import Mathlib.Order.Nat

/-!
# `task_group`

`coro/task_group.hpp`: tasks in the slots of a vector, and a linked list of their indices. An iterator, `free_pos`,
cuts the list in two: the slots in use, and from there on the free ones. A slot is taken at `free_pos`; those of
the tasks that have completed are moved to the end of the list, when they are collected.

The constructor only reserves memory for the vector. It is taken to have a slot for every index, as `grow` makes
it.

* `exact_iff`: no slot is taken that holds a task, in any run; but the slots from `free_pos` on are all that are free
  if and only if nothing was collected while there was none. Those that are moved to the end then stay in front
  of `free_pos`, which is the end itself, and are lost.
* `exists_start_of_exec`: a task can be started after every run, where the growth function grows.
-/

namespace Cppnet.Coro

open Lib

/-- `task_group`. A slot with a task has the position in the list that the task gives back when it completes.
    `growth` is the size that the growth factor makes of a size. -/
structure TaskGroup where
  tasks : List (Option ℕ)
  tasksIndices : NodeList ℕ
  tasksToDelete : List ℕ := []
  freePos : Iter
  growth : ℕ → ℕ

namespace TaskGroup

/-- `emplace_back` of the indices from `first` on. -/
def emplaceBack (l : NodeList ℕ) (first n : ℕ) : NodeList ℕ := (List.range' first n).foldl .pushBack l

/-- The constructor. -/
def init (reserveSize : ℕ) (growth : ℕ → ℕ) : TaskGroup where
  tasks := List.replicate reserveSize none
  tasksIndices := emplaceBack .empty 0 reserveSize
  freePos := (emplaceBack .empty 0 reserveSize).front
  growth := growth

variable (s : TaskGroup)

/-- One turn of the loop of `collect_garbage_internal`. -/
def collect (pos : ℕ) : Option TaskGroup := do
  let tasksIndices := s.tasksIndices.spliceBack pos
  let index ← tasksIndices.deref pos
  let _ ← s.tasks[index]?
  some { s with tasksIndices, tasks := s.tasks.set index none }

/-- `collect_garbage_internal`. -/
def collectGarbageInternal : Option TaskGroup :=
  (s.tasksToDelete.foldlM collect s).map fun s => { s with tasksToDelete := [] }

/-- `grow`. Without any indices, there is nothing in front of the end. -/
def grow : Option TaskGroup := do
  let lastPos ← s.tasksIndices.back
  let newSize := s.growth s.tasks.length
  let tasksIndices := emplaceBack s.tasksIndices s.tasks.length (newSize - s.tasks.length)
  let tasks := s.tasks.take newSize ++ List.replicate (newSize - s.tasks.length) none
  let freePos ← tasksIndices.nextOf lastPos
  some { s with tasksIndices, tasks, freePos }

/-- Grows, if there is no free slot. -/
def growFull : Option TaskGroup := if s.freePos = none then s.grow else some s

/-- `start`, and the task that was in the slot before. -/
def start : Option (Option ℕ × TaskGroup) := do
  let s ← s.collectGarbageInternal
  let s ← s.growFull
  let pos ← s.freePos
  let index ← s.tasksIndices.deref pos
  let old ← s.tasks[index]?
  let freePos ← s.tasksIndices.nextOf pos
  some (old, { s with tasks := s.tasks.set index (some pos), freePos })

/-- The end of the task in a slot, in `make_cleanup_task`. -/
def complete (slot : ℕ) : Option TaskGroup := do
  let pos ← s.tasks[slot]?.join
  if pos ∈ s.tasksToDelete then none else some { s with tasksToDelete := s.tasksToDelete ++ [pos] }

/-- What happens to a group, under its mutex. -/
inductive Action
  | start
  | complete (slot : ℕ)
  | collectGarbage

/-- One step, and the task that it overwrites. -/
def step : Action → Option (Option ℕ × TaskGroup)
  | .start => s.start
  | .complete slot => (s.complete slot).map (none, ·)
  | .collectGarbage => s.collectGarbageInternal.map (none, ·)

/-- The slots from `free_pos` to the end. -/
def free : List ℕ := (s.tasksIndices.nodesFrom s.freePos).map Prod.snd

/-- They are those without a task. -/
def Exact : Prop := ∀ slot, slot ∈ s.free ↔ s.tasks[slot]? = some none

/-- Where there are slots to collect, there is a free one. -/
def Collects : Action → Prop
  | .complete _ => True
  | _ => s.tasksToDelete ≠ [] → s.freePos ≠ none

instance : (a : Action) → Decidable (s.Collects a)
  | .complete _ => .isTrue trivial
  | .start => inferInstanceAs (Decidable (_ → _))
  | .collectGarbage => inferInstanceAs (Decidable (_ → _))

/-! ## The two parts of the list -/

/-- The list is cut at `free_pos` into `U` and `F`. It has every slot once; those with a task are in `U`, and the
    positions `D` are of such slots. -/
structure Valid (s : TaskGroup) (U F : List (ℕ × ℕ)) (D : List ℕ) : Prop where
  nodes : s.tasksIndices.nodes = U ++ F
  freePos : s.freePos = F.head?.map Prod.fst
  slots : ((U ++ F).map Prod.snd).Perm (List.range s.tasks.length)
  held : ∀ slot pos : ℕ, s.tasks[slot]? = some (some pos) → (pos, slot) ∈ U
  nodup : D.Nodup
  deleted : ∀ pos ∈ D, ∃ slot : ℕ, s.tasks[slot]? = some (some pos)

/-- A slot without a task is among those in use. -/
def Leaky (s : TaskGroup) (U : List (ℕ × ℕ)) : Prop := ∃ x ∈ U, s.tasks[x.2]? = some none

section Valid

variable {s s' : TaskGroup} {U F : List (ℕ × ℕ)} {D : List ℕ}

theorem Valid.lt (h : Valid s U F D) {x : ℕ × ℕ} (hx : x ∈ U ++ F) : x.2 < s.tasks.length :=
  List.mem_range.1 (h.slots.mem_iff.1 (List.mem_map_of_mem hx))

theorem Valid.snd_nodup (h : Valid s U F D) : ((U ++ F).map Prod.snd).Nodup :=
  h.slots.nodup_iff.2 List.nodup_range

/-- No slot is in both parts. -/
theorem Valid.snd_ne (h : Valid s U F D) {x y : ℕ × ℕ} (hx : x ∈ U) (hy : y ∈ F) : x.2 ≠ y.2 := by
  have hnodup := h.snd_nodup
  rw [List.map_append, List.nodup_append] at hnodup
  exact hnodup.2.2 _ (List.mem_map_of_mem hx) _ (List.mem_map_of_mem hy)

/-- The slots from `free_pos` on are free. -/
theorem Valid.tasks_free (h : Valid s U F D) {x : ℕ × ℕ} (hx : x ∈ F) : s.tasks[x.2]? = some none := by
  have hlt := h.lt (List.mem_append_right U hx)
  rcases htask : s.tasks[x.2]? with _ | _ | pos
  · exact absurd (List.getElem?_eq_none_iff.1 htask) (by omega)
  · rfl
  · exact (h.snd_ne (h.held x.2 pos htask) hx rfl).elim

theorem Valid.freePos_eq_none_iff (h : Valid s U F D) : s.freePos = none ↔ F = [] := by
  rw [h.freePos, Option.map_eq_none_iff, List.head?_eq_none_iff]

theorem Valid.free_eq (h : Valid s U F D) : s.free = F.map Prod.snd := by
  rw [free, h.freePos]
  rcases F with _ | ⟨⟨i, slot⟩, F⟩
  · rfl
  · exact congrArg _ (NodeList.nodesFrom_eq h.nodes)

/-- All free slots are from `free_pos` on if and only if there is none in front of it. -/
theorem Valid.exact_iff_not_leaky (h : Valid s U F D) : s.Exact ↔ ¬Leaky s U := by
  rw [Exact, h.free_eq]
  constructor
  · rintro hexact ⟨x, hx, hnone⟩
    obtain ⟨y, hy, heq⟩ := List.mem_map.1 ((hexact x.2).2 hnone)
    exact h.snd_ne hx hy heq.symm
  · intro hleaky slot
    constructor
    · intro hslot
      obtain ⟨x, hx, rfl⟩ := List.mem_map.1 hslot
      exact h.tasks_free hx
    · intro hnone
      obtain ⟨hlt, -⟩ := List.getElem?_eq_some_iff.1 hnone
      have hmem := h.slots.mem_iff.2 (List.mem_range.2 hlt)
      obtain ⟨x, hx, rfl⟩ := List.mem_map.1 hmem
      rcases List.mem_append.1 hx with hx | hx
      · exact absurd ⟨x, hx, hnone⟩ hleaky
      · exact List.mem_map_of_mem hx

end Valid

/-! ## Collecting -/

section Collect

variable {s : TaskGroup} {U F A B : List (ℕ × ℕ)} {D : List ℕ} {pos slot : ℕ}

/-- The slot goes to the end of the list. -/
theorem nodes_collect (hnodes : s.tasksIndices.nodes = A ++ (pos, slot) :: B) (hlt : slot < s.tasks.length) :
    ∃ l : NodeList ℕ, l.nodes = A ++ B ++ [(pos, slot)] ∧
      s.collect pos = some { s with tasksIndices := l, tasks := s.tasks.set slot none } := by
  have hspliced := NodeList.nodes_spliceBack hnodes
  refine ⟨s.tasksIndices.spliceBack pos, hspliced, ?_⟩
  simp only [TaskGroup.collect, NodeList.deref_eq (B := []) hspliced, List.getElem?_eq_getElem hlt,
    Option.bind_eq_bind, Option.bind_some]

theorem Valid.held_set_none (h : Valid s (A ++ (pos, slot) :: B) F D) (slot' pos' : ℕ)
    (hslot' : (s.tasks.set slot none)[slot']? = some (some pos')) : (pos', slot') ∈ A ++ B := by
  have hlt : slot < s.tasks.length := h.lt (x := (pos, slot)) (by simp)
  have hne : slot' ≠ slot := by
    rintro rfl
    rw [List.getElem?_set_self hlt] at hslot'
    cases hslot'
  rw [List.getElem?_set_ne hne.symm] at hslot'
  have hmem := h.held slot' pos' hslot'
  rw [List.mem_append, List.mem_cons] at hmem
  rw [List.mem_append]
  rcases hmem with hmem | hmem | hmem
  · exact .inl hmem
  · exact absurd (congrArg Prod.snd hmem) hne
  · exact .inr hmem

theorem Valid.deleted_set_none (h : Valid s U F (pos :: D)) (hslot : s.tasks[slot]? = some (some pos)) :
    ∀ pos' ∈ D, ∃ slot' : ℕ, (s.tasks.set slot none)[slot']? = some (some pos') := by
  intro pos' hpos'
  obtain ⟨slot', hslot'⟩ := h.deleted pos' (List.mem_cons_of_mem pos hpos')
  have hne : slot' ≠ slot := by
    rintro rfl
    rw [hslot] at hslot'
    cases hslot'
    exact (List.nodup_cons.1 h.nodup).1 hpos'
  exact ⟨slot', (List.getElem?_set_ne hne.symm).trans hslot'⟩

/-- The other slots in use keep what they have. -/
theorem Valid.leaky_set_none_iff (h : Valid s (A ++ (pos, slot) :: B) F D)
    (hslot : s.tasks[slot]? = some (some pos)) (l : NodeList ℕ) :
    Leaky { s with tasksIndices := l, tasks := s.tasks.set slot none } (A ++ B) ↔
      Leaky s (A ++ (pos, slot) :: B) := by
  constructor
  · rintro ⟨x, hx, hnone⟩
    have hsnd := h.snd_nodup
    rw [List.append_assoc, List.cons_append, List.map_append, List.map_cons, List.nodup_middle,
      List.nodup_cons, ← List.map_append, ← List.append_assoc] at hsnd
    have hne : x.2 ≠ slot := by
      intro heq
      exact hsnd.1 (List.mem_map.2 ⟨x, List.mem_append_left _ hx, heq⟩)
    refine ⟨x, ?_, (List.getElem?_set_ne hne.symm).symm.trans hnone⟩
    rw [List.mem_append] at hx
    rw [List.mem_append, List.mem_cons]
    exact hx.imp_right .inr
  · rintro ⟨x, hx, hnone⟩
    have hne : x.2 ≠ slot := by
      intro heq
      rw [heq, hslot] at hnone
      cases hnone
    refine ⟨x, ?_, (List.getElem?_set_ne hne.symm).trans hnone⟩
    rw [List.mem_append, List.mem_cons] at hx
    rw [List.mem_append]
    rcases hx with hx | rfl | hx
    · exact .inl hx
    · exact absurd rfl hne
    · exact .inr hx

/-- A slot is collected: it is free from then on, and behind `free_pos`, unless that is the end. -/
theorem Valid.collect (h : Valid s U F (pos :: D)) : ∃ s' U' F', s.collect pos = some s' ∧
    Valid s' U' F' D ∧ s'.tasksToDelete = s.tasksToDelete ∧ (Leaky s U → Leaky s' U') ∧
    (F = [] → F' = [] ∧ Leaky s' U') ∧ (F ≠ [] → F' ≠ [] ∧ (Leaky s' U' → Leaky s U)) := by
  obtain ⟨slot, hslot⟩ := h.deleted pos List.mem_cons_self
  obtain ⟨-, hnodup⟩ := List.nodup_cons.1 h.nodup
  obtain ⟨A, B, rfl⟩ := List.append_of_mem (h.held slot pos hslot)
  have hlt : slot < s.tasks.length := (List.getElem?_eq_some_iff.1 hslot).1
  have hnodes : s.tasksIndices.nodes = A ++ (pos, slot) :: (B ++ F) := by
    rw [h.nodes, List.append_assoc, List.cons_append]
  obtain ⟨l, hl, hcollect⟩ := nodes_collect hnodes hlt
  rw [← List.append_assoc] at hl
  have hslots : ((A ++ B ++ F ++ [(pos, slot)]).map Prod.snd).Perm
      (List.range (s.tasks.set slot none).length) := by
    have hperm : (A ++ B ++ F ++ [(pos, slot)]).Perm (A ++ (pos, slot) :: B ++ F) := by
      rw [List.append_assoc A B F, List.append_assoc A _ F, List.cons_append]
      exact (List.perm_append_singleton _ _).trans List.perm_middle.symm
    rw [List.length_set]
    exact (hperm.map Prod.snd).trans h.slots
  have hleaky := h.leaky_set_none_iff hslot l
  rcases F with _ | ⟨f, F⟩
  · -- `free_pos` is the end, and the slot is in front of it.
    rw [List.append_nil] at hl hslots
    refine ⟨_, A ++ B ++ [(pos, slot)], [], hcollect,
      ⟨?_, h.freePos, ?_, fun slot' pos' hslot' => ?_, hnodup, h.deleted_set_none hslot⟩, rfl, ?_, ?_, ?_⟩
    · rw [List.append_nil, hl]
    · rwa [List.append_nil]
    · exact List.mem_append_left _ (h.held_set_none slot' pos' hslot')
    · intro hleak
      obtain ⟨x, hx, hnone⟩ := hleaky.2 hleak
      exact ⟨x, List.mem_append_left _ hx, hnone⟩
    · exact fun _ => ⟨rfl, (pos, slot), by simp, List.getElem?_set_self hlt⟩
    · exact fun hne => absurd rfl hne
  · rw [List.append_assoc (A ++ B)] at hl hslots
    refine ⟨_, A ++ B, (f :: F) ++ [(pos, slot)], hcollect,
      ⟨hl, h.freePos, hslots, h.held_set_none, hnodup, h.deleted_set_none hslot⟩, rfl, hleaky.2, ?_, ?_⟩
    · exact fun hnil => absurd hnil (List.cons_ne_nil f F)
    · exact fun _ => ⟨by simp, hleaky.1⟩

/-- All of them are collected. They are lost, if there is no free slot then. -/
theorem Valid.collectAll (h : Valid s U F D) : ∃ s' U' F', D.foldlM TaskGroup.collect s = some s' ∧
    Valid s' U' F' [] ∧ s'.tasksToDelete = s.tasksToDelete ∧ (Leaky s U → Leaky s' U') ∧
    (F = [] → F' = [] ∧ (D ≠ [] → Leaky s' U')) ∧ (F ≠ [] ∨ D = [] → (Leaky s' U' → Leaky s U)) := by
  induction D generalizing s U F with
  | nil => exact ⟨s, U, F, rfl, h, rfl, id, fun hF => ⟨hF, fun hne => absurd rfl hne⟩, fun _ => id⟩
  | cons pos D ih =>
    obtain ⟨s₁, U₁, F₁, hcollect, h₁, hdelete₁, hleaky₁, hnil₁, hcons₁⟩ := h.collect
    obtain ⟨s₂, U₂, F₂, hfold, h₂, hdelete₂, hleaky₂, hnil₂, hcons₂⟩ := ih h₁
    refine ⟨s₂, U₂, F₂, ?_, h₂, hdelete₂.trans hdelete₁, fun hl => hleaky₂ (hleaky₁ hl), fun hF => ?_, ?_⟩
    · rw [List.foldlM_cons, hcollect]
      exact hfold
    · exact ⟨(hnil₂ (hnil₁ hF).1).1, fun _ => hleaky₂ (hnil₁ hF).2⟩
    · rintro (hF | hD) hl
      · exact (hcons₁ hF).2 (hcons₂ (.inl (hcons₁ hF).1) hl)
      · cases hD

/-- More is lost if and only if something is collected while there is no free slot. -/
theorem Valid.collectGarbageInternal (h : Valid s U F s.tasksToDelete) :
    ∃ s' U' F', s.collectGarbageInternal = some s' ∧ Valid s' U' F' [] ∧ s'.tasksToDelete = [] ∧
    (Leaky s U → Leaky s' U') ∧ (¬s.Collects .collectGarbage → Leaky s' U') ∧
    (s.Collects .collectGarbage → Leaky s' U' → Leaky s U) := by
  obtain ⟨s', U', F', hfold, h', -, hleaky, hnil, hcons⟩ := h.collectAll
  refine ⟨{ s' with tasksToDelete := [] }, U', F', ?_, ?_, rfl, hleaky, fun hnot => ?_, fun hmet => hcons ?_⟩
  · rw [TaskGroup.collectGarbageInternal, hfold]
    rfl
  · exact ⟨h'.nodes, h'.freePos, h'.slots, h'.held, h'.nodup, h'.deleted⟩
  · obtain ⟨hne, hend⟩ := Classical.not_imp.1 hnot
    exact (hnil (h.freePos_eq_none_iff.1 (not_not.1 hend))).2 hne
  · by_cases hne : s.tasksToDelete = []
    · exact .inr hne
    · exact .inl fun hF => hmet hne (h.freePos_eq_none_iff.2 hF)

end Collect

/-! ## Growing -/

theorem nodes_emplaceBack (l : NodeList ℕ) (first n : ℕ) : ∃ N : List (ℕ × ℕ),
    (emplaceBack l first n).nodes = l.nodes ++ N ∧ N.map Prod.snd = List.range' first n := by
  induction n generalizing l first with
  | zero => exact ⟨[], (List.append_nil _).symm, rfl⟩
  | succ n ih =>
    obtain ⟨N, hnodes, hsnd⟩ := ih (l.pushBack first) (first + 1)
    refine ⟨(l.next, first) :: N, ?_, ?_⟩
    · rw [emplaceBack, List.range'_succ, List.foldl_cons]
      refine hnodes.trans ?_
      change l.nodes ++ [(l.next, first)] ++ N = _
      rw [List.append_assoc]
      rfl
    · rw [List.map_cons, hsnd, List.range'_succ]

theorem valid_init (reserveSize : ℕ) (growth : ℕ → ℕ) :
    ∃ F, Valid (init reserveSize growth) [] F (init reserveSize growth).tasksToDelete := by
  obtain ⟨N, hnodes, hsnd⟩ := nodes_emplaceBack .empty 0 reserveSize
  have hnone : ∀ slot pos : ℕ, (List.replicate reserveSize (none : Option ℕ))[slot]? ≠ some (some pos) := by
    intro slot pos h
    cases List.eq_of_mem_replicate (List.mem_of_getElem? h)
  refine ⟨N, hnodes, ?_, ?_, fun slot pos h => absurd h (hnone slot pos), List.nodup_nil, by simp [init]⟩
  · change (emplaceBack .empty 0 reserveSize).front = _
    rw [NodeList.front, hnodes]
    rfl
  · rw [List.nil_append, hsnd, ← List.range_eq_range', init, List.length_replicate]

section Grow

variable {s s' : TaskGroup} {U F : List (ℕ × ℕ)} {D : List ℕ}

/-- New slots are behind the old ones, and `free_pos` is the first of them. -/
theorem Valid.grow (h : Valid s U [] D) (hgrow : s.grow = some s') (hfree : s'.freePos ≠ none) :
    ∃ F', Valid s' U F' D ∧ s'.tasksToDelete = s.tasksToDelete ∧
      ∀ x ∈ U, s'.tasks[x.2]? = s.tasks[x.2]? := by
  have hU : s.tasksIndices.nodes = U := h.nodes.trans (List.append_nil U)
  obtain ⟨lastPos, hback, hgrow⟩ := Option.bind_eq_some_iff.1 hgrow
  obtain ⟨freePos, hnext, hgrow⟩ := Option.bind_eq_some_iff.1 hgrow
  cases hgrow
  obtain ⟨N, hnodes, hsnd⟩ := nodes_emplaceBack s.tasksIndices s.tasks.length
    (s.growth s.tasks.length - s.tasks.length)
  obtain ⟨⟨i, slot⟩, hlast, rfl⟩ := Option.map_eq_some_iff.1 hback
  obtain ⟨A, hA⟩ := List.getLast?_eq_some_iff.1 hlast
  rw [hA, List.append_assoc] at hnodes
  rw [NodeList.nextOf_eq hnodes] at hnext
  cases hnext
  -- There are new slots, or `free_pos` would be the end.
  have hlt : s.tasks.length < s.growth s.tasks.length := by
    by_contra hle
    rw [Nat.sub_eq_zero_of_le (not_lt.1 hle), List.range'_zero, List.map_eq_nil_iff] at hsnd
    rw [hsnd] at hfree
    exact hfree rfl
  have htake : s.tasks.take (s.growth s.tasks.length) = s.tasks := List.take_of_length_le hlt.le
  have hold : ∀ slot' < s.tasks.length,
      (s.tasks.take (s.growth s.tasks.length) ++
        List.replicate (s.growth s.tasks.length - s.tasks.length) none)[slot']? = s.tasks[slot']? := by
    intro slot' hslot'
    rw [htake, List.getElem?_append_left hslot']
  refine ⟨N, ⟨?_, rfl, ?_, ?_, h.nodup, ?_⟩, rfl, fun x hx => hold x.2 (h.lt (List.mem_append_left _ hx))⟩
  · rw [← hU, hA]
    exact hnodes.trans (List.append_assoc A [_] N).symm
  · have hslots := h.slots
    rw [List.append_nil] at hslots
    dsimp only
    rw [List.map_append, hsnd, List.length_append, htake, List.length_replicate, List.range_add,
      List.range'_eq_map_range]
    exact hslots.append_right _
  · intro slot' pos hslot'
    dsimp only at hslot'
    by_cases hlen : slot' < s.tasks.length
    · rw [hold slot' hlen] at hslot'
      exact h.held slot' pos hslot'
    · rw [htake, List.getElem?_append_right (not_lt.1 hlen)] at hslot'
      cases List.eq_of_mem_replicate (List.mem_of_getElem? hslot')
  · intro pos hpos
    obtain ⟨slot', hslot'⟩ := h.deleted pos hpos
    exact ⟨slot', (hold slot' (List.getElem?_eq_some_iff.1 hslot').1).trans hslot'⟩

/-- Behind `grow`, if it is called, there is a free slot. -/
theorem Valid.growFull (h : Valid s U F D) (hgrow : s.growFull = some s') (hfree : s'.freePos ≠ none) :
    ∃ F', Valid s' U F' D ∧ s'.tasksToDelete = s.tasksToDelete ∧
      ∀ x ∈ U, s'.tasks[x.2]? = s.tasks[x.2]? := by
  rw [TaskGroup.growFull] at hgrow
  split_ifs at hgrow with hend
  · obtain rfl := h.freePos_eq_none_iff.1 hend
    exact h.grow hgrow hfree
  · cases hgrow
    exact ⟨F, h, rfl, fun _ _ => rfl⟩

/-- A free slot is taken. -/
theorem Valid.take {pos slot : ℕ} (h : Valid s U ((pos, slot) :: F) D) :
    Valid { s with tasks := s.tasks.set slot (some pos), freePos := F.head?.map Prod.fst }
      (U ++ [(pos, slot)]) F D ∧
    (Leaky { s with tasks := s.tasks.set slot (some pos), freePos := F.head?.map Prod.fst }
      (U ++ [(pos, slot)]) ↔ Leaky s U) := by
  have hfree : s.tasks[slot]? = some none := h.tasks_free List.mem_cons_self
  have hlt := (List.getElem?_eq_some_iff.1 hfree).1
  have hset : (s.tasks.set slot (some pos))[slot]? = some (some pos) := List.getElem?_set_self hlt
  have hother : ∀ {slot' : ℕ}, slot' ≠ slot → (s.tasks.set slot (some pos))[slot']? = s.tasks[slot']? :=
    fun hne => List.getElem?_set_ne (Ne.symm hne)
  have hassoc : U ++ [(pos, slot)] ++ F = U ++ (pos, slot) :: F := by simp
  refine ⟨⟨?_, rfl, ?_, ?_, h.nodup, ?_⟩, ?_⟩
  · rw [hassoc]
    exact h.nodes
  · rw [hassoc]
    dsimp only
    rw [List.length_set]
    exact h.slots
  · intro slot' pos' hslot'
    dsimp only at hslot'
    by_cases heq : slot' = slot
    · subst heq
      rw [hset] at hslot'
      cases hslot'
      simp
    · rw [hother heq] at hslot'
      exact List.mem_append_left _ (h.held slot' pos' hslot')
  · intro pos' hpos'
    obtain ⟨slot', hslot'⟩ := h.deleted pos' hpos'
    refine ⟨slot', (hother ?_).trans hslot'⟩
    rintro rfl
    rw [hfree] at hslot'
    cases hslot'
  · constructor
    · rintro ⟨x, hx, hnone⟩
      dsimp only at hnone
      have hne : x.2 ≠ slot := by
        intro heq
        rw [heq, hset] at hnone
        cases hnone
      rcases List.mem_append.1 hx with hx | hx
      · exact ⟨x, hx, (hother hne).symm.trans hnone⟩
      · rw [List.mem_singleton.1 hx] at hne
        exact absurd rfl hne
    · rintro ⟨x, hx, hnone⟩
      exact ⟨x, List.mem_append_left _ hx,
        (hother (h.snd_ne hx List.mem_cons_self)).trans hnone⟩

end Grow

/-! ## Steps -/

section Steps

variable {s s' : TaskGroup} {U F : List (ℕ × ℕ)}

/-- A step overwrites no task. What is lost stays lost, and more is lost if and only if the step collects while
    there is no free slot. -/
structure Effect (s s' : TaskGroup) (U : List (ℕ × ℕ)) (collects : Prop) : Prop where
  valid : ∃ U' F', Valid s' U' F' s'.tasksToDelete ∧ (Leaky s U → Leaky s' U') ∧
    (¬collects → Leaky s' U') ∧ (collects → Leaky s' U' → Leaky s U)

theorem Valid.start {old : Option ℕ} (h : Valid s U F s.tasksToDelete) (hstart : s.start = some (old, s')) :
    old = none ∧ Effect s s' U (s.Collects .start) := by
  obtain ⟨s₁, U₁, F₁, hcollect, h₁, hdelete₁, hleaky, hlost, hkept⟩ := h.collectGarbageInternal
  rw [TaskGroup.start, hcollect, Option.bind_eq_bind, Option.bind_some] at hstart
  obtain ⟨s₂, hs₂, hstart⟩ := Option.bind_eq_some_iff.1 hstart
  obtain ⟨pos, hpos, hstart⟩ := Option.bind_eq_some_iff.1 hstart
  obtain ⟨slot, hslot, hstart⟩ := Option.bind_eq_some_iff.1 hstart
  obtain ⟨old', hold, hstart⟩ := Option.bind_eq_some_iff.1 hstart
  obtain ⟨freePos, hnext, hstart⟩ := Option.bind_eq_some_iff.1 hstart
  cases hstart
  obtain ⟨F₂, h₂, hdelete₂, hsame⟩ := h₁.growFull hs₂ (by rw [hpos]; simp)
  have hleaky₂ : Leaky s₂ U₁ ↔ Leaky s₁ U₁ := by
    rw [Leaky, Leaky]
    exact exists_congr fun x => and_congr_right fun hx => by rw [hsame x hx]
  obtain ⟨F₃, rfl⟩ : ∃ F₃, F₂ = (pos, slot) :: F₃ := by
    rcases F₂ with _ | ⟨⟨i, slot'⟩, F₃⟩
    · rw [h₂.freePos] at hpos
      cases hpos
    · rw [h₂.freePos] at hpos
      cases hpos
      rw [NodeList.deref_eq h₂.nodes] at hslot
      cases hslot
      exact ⟨F₃, rfl⟩
  rw [NodeList.nextOf_eq h₂.nodes] at hnext
  cases hnext
  rw [h₂.tasks_free List.mem_cons_self] at hold
  cases hold
  obtain ⟨h₃, hleaky₃⟩ := h₂.take
  refine ⟨rfl, U₁ ++ [(pos, slot)], F₃, ?_, fun hl => ?_, fun hnot => ?_, fun hmet hl => ?_⟩
  · rw [← hdelete₂.trans hdelete₁] at h₃
    exact h₃
  · exact hleaky₃.2 (hleaky₂.2 (hleaky hl))
  · exact hleaky₃.2 (hleaky₂.2 (hlost hnot))
  · exact hkept hmet (hleaky₂.1 (hleaky₃.1 hl))

theorem Valid.collectGarbage (h : Valid s U F s.tasksToDelete) (hcollect : s.collectGarbageInternal = some s') :
    Effect s s' U (s.Collects .collectGarbage) := by
  obtain ⟨s₁, U₁, F₁, hcollect₁, h₁, hdelete₁, heffect⟩ := h.collectGarbageInternal
  rw [hcollect₁] at hcollect
  cases hcollect
  rw [← hdelete₁] at h₁
  exact ⟨U₁, F₁, h₁, heffect⟩

theorem Valid.complete {slot : ℕ} (h : Valid s U F s.tasksToDelete) (hcomplete : s.complete slot = some s') :
    Effect s s' U True := by
  obtain ⟨pos, hpos, hcomplete⟩ := Option.bind_eq_some_iff.1 hcomplete
  split_ifs at hcomplete with hmem
  cases hcomplete
  refine ⟨U, F, ⟨h.nodes, h.freePos, h.slots, h.held, ?_, ?_⟩, id, fun hnot => absurd trivial hnot, fun _ => id⟩
  · rw [List.nodup_append]
    refine ⟨h.nodup, List.nodup_singleton pos, fun a ha b hb heq => hmem ?_⟩
    rw [← List.mem_singleton.1 hb, ← heq]
    exact ha
  · intro pos' hpos'
    rcases List.mem_append.1 hpos' with hpos' | hpos'
    · exact h.deleted pos' hpos'
    · rw [List.mem_singleton.1 hpos']
      exact ⟨slot, Option.join_eq_some_iff.1 hpos⟩

theorem Valid.step {a : Action} {o : Option ℕ} (h : Valid s U F s.tasksToDelete) (hstep : s.step a = some (o, s')) :
    o = none ∧ Effect s s' U (s.Collects a) := by
  cases a with
  | start => exact h.start hstep
  | complete slot =>
    obtain ⟨s₁, hs₁, heq⟩ := Option.map_eq_some_iff.1 hstep
    cases heq
    exact ⟨rfl, h.complete hs₁⟩
  | collectGarbage =>
    obtain ⟨s₁, hs₁, heq⟩ := Option.map_eq_some_iff.1 hstep
    cases heq
    exact ⟨rfl, h.collectGarbage hs₁⟩

end Steps

/-- The list is cut in two in every run. -/
def WellFormed (s : TaskGroup) : Prop := ∃ U F, Valid s U F s.tasksToDelete

theorem WellFormed.step {s s' : TaskGroup} {a : Action} {o : Option ℕ} (h : WellFormed s)
    (hstep : s.step a = some (o, s')) : o = none ∧ WellFormed s' ∧ (s'.Exact → s.Exact) ∧
      (s.Exact → (s'.Exact ↔ s.Collects a)) := by
  obtain ⟨U, F, h⟩ := h
  obtain ⟨ho, U', F', h', hleaky, hnot, hmet⟩ := h.step hstep
  rw [h.exact_iff_not_leaky, h'.exact_iff_not_leaky]
  refine ⟨ho, ⟨U', F', h'⟩, fun hl' hl => hl' (hleaky hl), fun hl => ⟨fun hl' => ?_, fun hmet' hl' => ?_⟩⟩
  · by_contra hcollects
    exact hl' (hnot hcollects)
  · exact hl (hmet hmet' hl')

/-- In every run, no step gives a slot to a task that holds another one; and the slots from `free_pos` on are exactly
    those that hold no task if and only if nothing was collected while there was no free slot. -/
theorem exact_iff (reserveSize : ℕ) (growth : ℕ → ℕ) (actions : List Action) (outs : List (Option ℕ))
    (s : TaskGroup) (h : exec step (init reserveSize growth) actions = some (outs, s)) :
    (∀ old ∈ outs, old = none) ∧ (s.Exact ↔ Along step Collects (init reserveSize growth) actions) := by
  obtain ⟨F, hinit⟩ := valid_init reserveSize growth
  have hwf : WellFormed (init reserveSize growth) := ⟨[], F, hinit⟩
  have hexact : (init reserveSize growth).Exact := by
    rw [hinit.exact_iff_not_leaky]
    rintro ⟨x, hx, -⟩
    cases hx
  have hend : WellFormed s :=
    exec_invariant WellFormed (fun _ _ _ _ hs hstep => (hs.step hstep).2.1) hwf h
  have hiff : (WellFormed s → s.Exact) ↔ Along step Collects (init reserveSize growth) actions := by
    refine exec_iff_along (P := fun s => WellFormed s → s.Exact) (fun s => WellFormed s ∧ s.Exact)
      (fun s hs _ => hs.2) ?_ ?_ ?_ ⟨hwf, hexact⟩ h
    · intro s a o s' hs hC hstep
      obtain ⟨-, hwf', -, hiff⟩ := hs.1.step hstep
      exact ⟨hwf', (hiff hs.2).2 hC⟩
    · intro s a o s' hs hC hstep hexact'
      obtain ⟨-, hwf', -, hiff⟩ := hs.1.step hstep
      exact hC ((hiff hs.2).1 (hexact' hwf'))
    · intro s a o s' hstep hexact' hs
      obtain ⟨-, hwf', hback, -⟩ := hs.step hstep
      exact hback (hexact' hwf')
  refine ⟨exec_outputs WellFormed (fun _ _ _ _ hs hstep => ⟨(hs.step hstep).1, (hs.step hstep).2.1⟩) hwf h, ?_⟩
  exact ⟨fun hs => hiff.1 fun _ => hs, fun halong => hiff.2 halong hend⟩

/-- A slot is collected while another one is free, and it is the next that is taken. -/
theorem exact_iff_two :
    let actions : List Action := [.start, .complete 0, .collectGarbage, .start, .start, .start]
    ∃ outs s, exec step (init 2 (2 * ·)) actions = some (outs, s) ∧ s.tasks.length = 4 ∧ s.free = [3] ∧
      (∀ old ∈ outs, old = none) ∧ s.Exact := by
  intro actions
  have halong : Along step Collects (init 2 (2 * ·)) actions := by
    decide
  obtain ⟨outs, s, h, hlen, hfree⟩ : ∃ outs s, exec step (init 2 (2 * ·)) actions = some (outs, s) ∧
      s.tasks.length = 4 ∧ s.free = [3] := ⟨_, _, rfl, rfl, rfl⟩
  obtain ⟨hold, hiff⟩ := exact_iff 2 (2 * ·) actions outs s h
  exact ⟨outs, s, h, hlen, hfree, hold, hiff.2 halong⟩

/-- The only slot is collected when it is taken again: another one is made, and it is lost. -/
theorem not_exact_of_full : ∃ outs s,
    exec step (init 1 (2 * ·)) [.start, .complete 0, .start] = some (outs, s) ∧ s.tasks = [none, some 1] ∧
      s.free = [] ∧ ¬s.Exact := by
  refine ⟨_, _, rfl, rfl, rfl, fun hexact => ?_⟩
  cases (hexact 0).2 rfl

/-! ## Progress -/

section Progress

variable {s s' : TaskGroup} {U F : List (ℕ × ℕ)} {D : List ℕ} {growth : ℕ → ℕ}

/-- There is a slot, and the growth function is the one of the constructor. -/
def Grows (growth : ℕ → ℕ) (s : TaskGroup) : Prop := s.growth = growth ∧ 0 < s.tasks.length

theorem Grows.collect {pos : ℕ} (h : Grows growth s) (hcollect : s.collect pos = some s') : Grows growth s' := by
  obtain ⟨index, -, hcollect⟩ := Option.bind_eq_some_iff.1 hcollect
  obtain ⟨old, -, hcollect⟩ := Option.bind_eq_some_iff.1 hcollect
  cases hcollect
  exact ⟨h.1, by rw [List.length_set]; exact h.2⟩

theorem Grows.collectGarbageInternal (h : Grows growth s) (hcollect : s.collectGarbageInternal = some s') :
    Grows growth s' := by
  have hall : ∀ (D : List ℕ) {s s' : TaskGroup}, Grows growth s → D.foldlM TaskGroup.collect s = some s' →
      Grows growth s' := by
    intro D
    induction D with
    | nil =>
      intro s s' h hfold
      cases hfold
      exact h
    | cons pos D ih =>
      intro s s' h hfold
      rw [List.foldlM_cons] at hfold
      obtain ⟨s₁, hcollect, hfold⟩ := Option.bind_eq_some_iff.1 hfold
      exact ih (h.collect hcollect) hfold
  obtain ⟨s₁, hfold, rfl⟩ := Option.map_eq_some_iff.1 hcollect
  have hgrows : Grows growth s₁ := hall s.tasksToDelete h hfold
  exact hgrows

/-- Where the growth function grows, `grow` makes slots. -/
theorem Valid.exists_growFull (h : Valid s U F D) (hgrows : Grows growth s) (hgrowth : ∀ n > 0, n < growth n) :
    ∃ s', s.growFull = some s' ∧ s'.freePos ≠ none ∧ Grows growth s' := by
  rw [TaskGroup.growFull]
  split_ifs with hend
  · obtain rfl := h.freePos_eq_none_iff.1 hend
    obtain ⟨rfl, hpos⟩ := hgrows
    have hlt := hgrowth s.tasks.length hpos
    have hne : s.tasksIndices.nodes ≠ [] := by
      intro hnil
      have hslots := h.slots.length_eq
      rw [← h.nodes, hnil, List.length_range] at hslots
      exact hpos.ne hslots
    obtain ⟨A, ⟨pos, slot⟩, hA⟩ := (List.eq_nil_or_concat' s.tasksIndices.nodes).resolve_left hne
    obtain ⟨N, hnodes, hsnd⟩ := nodes_emplaceBack s.tasksIndices s.tasks.length
      (s.growth s.tasks.length - s.tasks.length)
    rw [hA, List.append_assoc] at hnodes
    have hback : s.tasksIndices.back = some pos := by
      rw [NodeList.back, hA, List.getLast?_concat]
      rfl
    have hN : N ≠ [] := by
      rintro rfl
      have hlen := congrArg List.length hsnd
      rw [List.length_range'] at hlen
      exact (Nat.sub_pos_of_lt hlt).ne hlen
    obtain ⟨f, N, rfl⟩ := List.exists_cons_of_ne_nil hN
    have hgrow : s.grow = some { s with
        tasksIndices := emplaceBack s.tasksIndices s.tasks.length (s.growth s.tasks.length - s.tasks.length)
        tasks := s.tasks.take (s.growth s.tasks.length) ++
          List.replicate (s.growth s.tasks.length - s.tasks.length) none
        freePos := some f.1 } := by
      rw [TaskGroup.grow, hback]
      dsimp only [Option.bind_eq_bind, Option.bind_some]
      rw [NodeList.nextOf_eq hnodes]
      rfl
    refine ⟨_, hgrow, Option.some_ne_none f.1, rfl, ?_⟩
    dsimp only
    rw [List.length_append, List.take_of_length_le hlt.le]
    exact Nat.add_pos_left hpos _
  · exact ⟨s, rfl, hend, hgrows⟩

/-- A task can be started. -/
theorem Valid.exists_start (h : Valid s U F s.tasksToDelete) (hgrows : Grows growth s)
    (hgrowth : ∀ n > 0, n < growth n) : ∃ old s', s.start = some (old, s') ∧ Grows growth s' := by
  obtain ⟨s₁, U₁, F₁, hcollect, h₁, -, -⟩ := h.collectGarbageInternal
  obtain ⟨s₂, hs₂, hfree, hgrows₂⟩ := h₁.exists_growFull (hgrows.collectGarbageInternal hcollect) hgrowth
  obtain ⟨F₂, h₂, -, -⟩ := h₁.growFull hs₂ hfree
  obtain ⟨⟨pos, slot⟩, F₃, rfl⟩ := List.exists_cons_of_ne_nil fun hnil => hfree (h₂.freePos_eq_none_iff.2 hnil)
  refine ⟨none, { s₂ with tasks := s₂.tasks.set slot (some pos), freePos := F₃.head?.map Prod.fst }, ?_,
    hgrows₂.1, ?_⟩
  · have hpos : s₂.freePos = some pos := h₂.freePos
    simp only [TaskGroup.start, hcollect, hs₂, hpos, NodeList.deref_eq h₂.nodes, NodeList.nextOf_eq h₂.nodes,
      h₂.tasks_free List.mem_cons_self, Option.bind_eq_bind, Option.bind_some]
  · dsimp only
    rw [List.length_set]
    exact hgrows₂.2

theorem Grows.step {a : Action} {o : Option ℕ} (hgrowth : ∀ n > 0, n < growth n)
    (h : WellFormed s ∧ Grows growth s) (hstep : s.step a = some (o, s')) : WellFormed s' ∧ Grows growth s' := by
  refine ⟨(h.1.step hstep).2.1, ?_⟩
  obtain ⟨⟨U, F, hvalid⟩, hgrows⟩ := h
  cases a with
  | start =>
    obtain ⟨old, s₁, hstart, hgrows₁⟩ := hvalid.exists_start hgrows hgrowth
    cases hstart.symm.trans hstep
    exact hgrows₁
  | complete slot =>
    obtain ⟨s₁, hcomplete, heq⟩ := Option.map_eq_some_iff.1 hstep
    cases heq
    obtain ⟨pos, -, hcomplete⟩ := Option.bind_eq_some_iff.1 hcomplete
    split_ifs at hcomplete
    cases hcomplete
    exact hgrows
  | collectGarbage =>
    obtain ⟨s₁, hcollect, heq⟩ := Option.map_eq_some_iff.1 hstep
    cases heq
    exact hgrows.collectGarbageInternal hcollect

/-- With a slot to begin with and a growth function that grows, a task can be started at any time, and it overwrites
    none. -/
theorem exists_start_of_exec {reserveSize : ℕ} (hreserve : 0 < reserveSize) (hgrowth : ∀ n > 0, n < growth n)
    {actions : List Action} {outs : List (Option ℕ)}
    (h : exec step (init reserveSize growth) actions = some (outs, s)) : ∃ s', s.start = some (none, s') := by
  obtain ⟨F, hinit⟩ := valid_init reserveSize growth
  have hgrows : Grows growth (init reserveSize growth) := by
    refine ⟨rfl, ?_⟩
    rw [init, List.length_replicate]
    exact hreserve
  obtain ⟨⟨U, F, hvalid⟩, hgrows⟩ := exec_invariant (fun s => WellFormed s ∧ Grows growth s)
    (fun _ _ _ _ hs hstep => Grows.step hgrowth hs hstep) ⟨⟨[], F, hinit⟩, hgrows⟩ h
  obtain ⟨old, s', hstart, -⟩ := hvalid.exists_start hgrows hgrowth
  obtain ⟨rfl, -⟩ := hvalid.start hstart
  exact ⟨s', hstart⟩

end Progress

end TaskGroup

end Cppnet.Coro
