import Cppnet.Lib.NodeList
import Cppnet.Util.ResourcePool

/-!
# `borrowed_resource`

The handles of a pool: `get` and `try_get` give one, its move constructor and its move assignment take over
what another one holds, and its destructor gives that back. The move assignment is the default one: what the
handle held before is deleted, and not given back.

* `accounted_iff`: every resource is accounted for, in every state of a run, if and only if the run assigns
  only to handles that hold nothing, or to themselves, and each call of `make()` gives a resource.
-/

namespace Cppnet.Util

open Lib

/-- What `make()` does: it gives a resource, or a null pointer, or throws. -/
inductive Made
  | resource
  | null
  | throws
  deriving DecidableEq

/-- A pool, its handles, with the pointer of each one, the resources that `put` dropped, and the number of the
    next one `make()` gives. -/
structure Handles where
  pool : ResourcePool (Option ℕ)
  handles : NodeList (Option ℕ) := .empty
  dropped : List (Option ℕ) := []
  next : ℕ := 0

/-- The calls: `get`, with what `make()` does if it is called, `get` going on after it waited, `try_get`, and
    the special members of the handles. -/
inductive Handles.Action
  | get (made : Made)
  | wake
  | tryGet
  | moveConstruct (other : ℕ)
  | moveAssign (this other : ℕ)
  | destroy (this : ℕ)

namespace Handles

/-- `get` calls `make()`. -/
def CallsMake (s : Handles) : Prop := s.pool.pool = [] ∧ s.pool.numBorrowed < s.pool.maxSize

instance (s : Handles) : Decidable s.CallsMake := inferInstanceAs (Decidable (_ ∧ _))

/-- What `make()` gives. -/
def make (s : Handles) : Made → Option (Option ℕ)
  | .resource => some (some s.next)
  | .null => some none
  | .throws => none

/-- After a call: a new handle for what is borrowed. -/
def after (s : Handles) : Outcome (Option ℕ) × ResourcePool (Option ℕ) → Outcome (Option ℕ) × Handles
  | (.borrowed ptr, pool) => (.borrowed ptr, { s with pool, handles := s.handles.pushBack ptr })
  | (out, pool) => (out, { s with pool })

/-- One call. -/
def step (s : Handles) : Action → Option (Outcome (Option ℕ) × Handles)
  | .get made =>
    let next := if s.CallsMake ∧ made = .resource then s.next + 1 else s.next
    (s.pool.get (s.make made)).map (after { s with next })
  | .wake => if s.pool.numWaiting ≠ 0 ∧ s.pool.pool ≠ [] then s.pool.wake.map s.after else none
  | .tryGet => s.pool.tryGet.map s.after
  | .moveConstruct other => (s.handles.deref other).map fun ptr =>
      (.nothing, { s with handles := (s.handles.modify other fun _ => none).pushBack ptr })
  | .moveAssign this other => (s.handles.deref this).bind fun _ => (s.handles.deref other).map fun ptr =>
      -- `ptr = std::move(other.ptr)`: released there, and then reset here.
      (.nothing, { s with handles := (s.handles.modify other fun _ => none).modify this fun _ => ptr })
  | .destroy this => (s.handles.deref this).map fun
      | none => (.nothing, { s with handles := s.handles.erase this })
      | some res =>
        let pool := s.pool.put (some res)
        let dropped := if pool.pool = s.pool.pool then some res :: s.dropped else s.dropped
        (.released, { s with pool, dropped, handles := s.handles.erase this })

/-- The pointers that are not null. -/
def pointers (nodes : List (ℕ × Option ℕ)) : List (Option ℕ) := (nodes.map Prod.snd).filter Option.isSome

/-- The resources the handles hold. -/
def held (s : Handles) : List (Option ℕ) := pointers s.handles.nodes

/-- The pool counts the handles that hold a resource, and every resource that was made is in the pool, or held,
    or was dropped by `put`. -/
structure Accounted (s : Handles) : Prop where
  numBorrowed : s.pool.numBorrowed = s.held.length
  resources : ((List.range s.next).map some).Perm (s.pool.pool ++ (s.held ++ s.dropped))

/-- The call loses no resource: `make()` gives one, if it is called, and a handle that is assigned to holds
    none, or is the one that is assigned. -/
def Careful (s : Handles) : Action → Prop
  | .get made => s.CallsMake → made = .resource
  | .moveAssign this other => this = other ∨ s.handles.deref this = some none
  | _ => True

instance (s : Handles) : (a : Action) → Decidable (s.Careful a)
  | .get made => inferInstanceAs (Decidable (s.CallsMake → made = .resource))
  | .moveAssign this other => inferInstanceAs (Decidable (this = other ∨ s.handles.deref this = some none))
  | .wake | .tryGet | .moveConstruct _ | .destroy _ => .isTrue trivial

/-! ## Pointers -/

section Pointers

variable {l : NodeList (Option ℕ)} {A B : List (ℕ × Option ℕ)} {i : ℕ} {p q : Option ℕ}

theorem pointers_append (A B : List (ℕ × Option ℕ)) : pointers (A ++ B) = pointers A ++ pointers B := by
  rw [pointers, List.map_append, List.filter_append]
  rfl

theorem pointers_pushBack (l : NodeList (Option ℕ)) (p : Option ℕ) :
    pointers (l.pushBack p).nodes = pointers l.nodes ++ [p].filter Option.isSome :=
  pointers_append _ _

theorem pointers_perm (A B : List (ℕ × Option ℕ)) (i : ℕ) (p : Option ℕ) :
    (pointers (A ++ (i, p) :: B)).Perm ([p].filter Option.isSome ++ pointers (A ++ B)) := by
  rw [← List.singleton_append, ← List.append_assoc]
  have hmiddle : (A ++ [(i, p)] ++ B).Perm ([(i, p)] ++ (A ++ B)) := by
    rw [← List.append_assoc]
    exact List.perm_append_comm.append_right B
  refine ((hmiddle.map Prod.snd).filter Option.isSome).trans (List.Perm.of_eq ?_)
  rw [List.map_append, List.filter_append]
  rfl

/-- What the handles hold, and one that is assigned to, after it took over what another one held. -/
theorem pointers_assign {this other : ℕ} {old ptr : Option ℕ} (hne : this ≠ other)
    (hthis : l.deref this = some old) (hother : l.deref other = some ptr) :
    ([old].filter Option.isSome ++
      pointers ((l.modify other fun _ => none).modify this fun _ => ptr).nodes).Perm (pointers l.nodes) := by
  obtain ⟨A, B, hl⟩ := NodeList.exists_of_deref hother
  obtain ⟨A', B', hl'⟩ := NodeList.exists_of_deref hthis
  obtain ⟨C, D, hmodify⟩ := NodeList.exists_of_modify hl' hne fun _ => none
  have hbefore : (pointers l.nodes).Perm ([ptr].filter Option.isSome ++ pointers (A ++ B)) := by
    rw [hl]
    exact pointers_perm A B other ptr
  -- Between the two, the resource is in neither of them.
  have hbetween : (pointers (A ++ B)).Perm ([old].filter Option.isSome ++ pointers (C ++ D)) := by
    have hleft := pointers_perm A B other none
    have hright := pointers_perm C D this old
    rw [← NodeList.nodes_modify hl fun _ => none, hmodify] at hleft
    exact hleft.symm.trans hright
  have hafter : (pointers ((l.modify other fun _ => none).modify this fun _ => ptr).nodes).Perm
      ([ptr].filter Option.isSome ++ pointers (C ++ D)) := by
    rw [NodeList.nodes_modify hmodify]
    exact pointers_perm C D this ptr
  calc List.Perm _ ([old].filter Option.isSome ++ ([ptr].filter Option.isSome ++ pointers (C ++ D))) :=
        hafter.append_left _
    List.Perm _ ([ptr].filter Option.isSome ++ ([old].filter Option.isSome ++ pointers (C ++ D))) :=
        List.perm_append_comm_assoc _ _ _
    List.Perm _ ([ptr].filter Option.isSome ++ pointers (A ++ B)) := hbetween.symm.append_left _
    List.Perm _ (pointers l.nodes) := hbefore.symm

/-- An assignment of a handle to itself. -/
theorem pointers_assign_self {this : ℕ} {ptr : Option ℕ} (hthis : l.deref this = some ptr) :
    ((l.modify this fun _ => none).modify this fun _ => ptr).nodes = l.nodes := by
  obtain ⟨A, B, hl⟩ := NodeList.exists_of_deref hthis
  rw [NodeList.nodes_modify (NodeList.nodes_modify hl fun _ => none), hl]

end Pointers

/-! ## Calls that lose nothing -/

/-- What `get` comes to: a resource that is made, or none though it is counted, or a wait, or a resource of the
    pool. -/
theorem step_get_cases {s s' : Handles} {made : Made} {o : Outcome (Option ℕ)}
    (hstep : s.step (.get made) = some (o, s')) :
    (s.CallsMake ∧ made = .resource ∧ s' = { s with
        pool := { s.pool with numBorrowed := s.pool.numBorrowed + 1 }
        handles := s.handles.pushBack (some s.next)
        next := s.next + 1 }) ∨
      (s.CallsMake ∧ made ≠ .resource ∧ s'.held = s.held ∧
        s'.pool.numBorrowed = s.pool.numBorrowed + 1) ∨
      (¬s.CallsMake ∧ s' = { s with pool := { s.pool with numWaiting := s.pool.numWaiting + 1 } }) ∨
      (¬s.CallsMake ∧ ∃ ptr rest, s.pool.pool = ptr :: rest ∧ s' = { s with
        pool := { s.pool with pool := rest, numBorrowed := s.pool.numBorrowed + 1 }
        handles := s.handles.pushBack ptr }) := by
  rw [step] at hstep
  by_cases hcalls : s.CallsMake
  · rw [ResourcePool.get, if_pos hcalls.1, if_pos hcalls.2] at hstep
    cases made with
    | resource =>
      rw [if_pos ⟨hcalls, rfl⟩] at hstep
      cases hstep
      exact .inl ⟨hcalls, rfl, rfl⟩
    | null =>
      cases hstep
      refine .inr (.inl ⟨hcalls, by simp, ?_, rfl⟩)
      exact (pointers_pushBack _ _).trans (List.append_nil _)
    | throws =>
      cases hstep
      exact .inr (.inl ⟨hcalls, by simp, rfl, rfl⟩)
  · rw [if_neg fun hmakes => hcalls hmakes.1, ResourcePool.get] at hstep
    split_ifs at hstep with hpool hlt
    · exact absurd ⟨hpool, hlt⟩ hcalls
    · cases hstep
      exact .inr (.inr (.inl ⟨hcalls, rfl⟩))
    · obtain ⟨ptr, rest, hcons⟩ := List.exists_cons_of_ne_nil hpool
      rw [ResourcePool.take, hcons] at hstep
      cases hstep
      exact .inr (.inr (.inr ⟨hcalls, ptr, rest, hcons, rfl⟩))

section Calls

variable {s : Handles} (h : s.Accounted)

include h

/-- No null pointer is in the pool. -/
theorem Accounted.isSome_of_mem {ptr : Option ℕ} (hptr : ptr ∈ s.pool.pool) : ptr.isSome := by
  obtain ⟨r, -, rfl⟩ := List.mem_map.1 (h.resources.mem_iff.2 (List.mem_append_left _ hptr))
  rfl

/-- A resource of the pool, in a new handle. -/
theorem Accounted.take {ptr : Option ℕ} {rest : List (Option ℕ)} (hpool : s.pool.pool = ptr :: rest)
    (numWaiting : ℕ) :
    Accounted { s with
      pool := { s.pool with pool := rest, numWaiting, numBorrowed := s.pool.numBorrowed + 1 }
      handles := s.handles.pushBack ptr } := by
  have hsome := h.isSome_of_mem (hpool ▸ List.mem_cons_self)
  have hheld : pointers (s.handles.pushBack ptr).nodes = s.held ++ [ptr] := by
    rw [pointers_pushBack, List.filter_singleton, hsome]
    rfl
  refine ⟨?_, ?_⟩
  · rw [held, hheld, List.length_append, ← h.numBorrowed]
    rfl
  · rw [held, hheld]
    have hmiddle : (ptr :: (s.held ++ s.dropped)).Perm (s.held ++ [ptr] ++ s.dropped) := by
      rw [List.append_assoc]
      exact List.perm_middle.symm
    refine h.resources.trans ?_
    rw [hpool]
    exact List.perm_middle.symm.trans (hmiddle.append_left rest)

/-- A resource of `make()`, in a new handle. -/
theorem Accounted.make (hpool : s.pool.pool = []) :
    Accounted { s with
      pool := { s.pool with numBorrowed := s.pool.numBorrowed + 1 }
      handles := s.handles.pushBack (some s.next)
      next := s.next + 1 } := by
  have hheld : pointers (s.handles.pushBack (some s.next)).nodes = s.held ++ [some s.next] :=
    pointers_pushBack _ _
  refine ⟨?_, ?_⟩
  · rw [held, hheld, List.length_append, ← h.numBorrowed]
    rfl
  · have hresources := h.resources
    rw [hpool, List.nil_append] at hresources
    rw [held, hheld, hpool, List.nil_append, List.range_succ, List.map_append, List.append_assoc]
    refine (hresources.append_right _).trans ?_
    rw [List.append_assoc]
    exact List.perm_append_comm.append_left s.held

/-- The handles pass their resources on. -/
theorem Accounted.move {handles : NodeList (Option ℕ)} (hperm : (pointers handles.nodes).Perm s.held) :
    Accounted { s with handles } :=
  ⟨h.numBorrowed.trans hperm.length_eq.symm, h.resources.trans ((hperm.symm.append_right _).append_left _)⟩

/-- A resource is given back. -/
theorem Accounted.put {A B : List (ℕ × Option ℕ)} {i res : ℕ}
    (hl : s.handles.nodes = A ++ (i, some res) :: B) :
    Accounted { s with
      pool := s.pool.put (some res)
      dropped := if (s.pool.put (some res)).pool = s.pool.pool then some res :: s.dropped else s.dropped
      handles := s.handles.erase i } := by
  have hheld : s.held.Perm (some res :: pointers (A ++ B)) := by
    rw [held, hl]
    exact pointers_perm A B i (some res)
  have hnodes : pointers (s.handles.erase i).nodes = pointers (A ++ B) := by rw [NodeList.nodes_erase hl]
  have hlen := hheld.length_eq
  have hborrowed := h.numBorrowed
  have hresources := h.resources.trans ((hheld.append_right s.dropped).append_left s.pool.pool)
  rw [List.length_cons] at hlen
  rw [ResourcePool.put]
  dsimp only
  split_ifs with hdrop heq heq
  · refine ⟨?_, ?_⟩
    · rw [held, hnodes]
      dsimp only
      omega
    · rw [held, hnodes]
      refine hresources.trans (List.Perm.append_left _ ?_)
      exact List.perm_middle.symm
  · exact absurd rfl heq
  · exact absurd heq (List.cons_ne_self _ _)
  · refine ⟨?_, ?_⟩
    · rw [held, hnodes]
      dsimp only
      omega
    · rw [held, hnodes]
      exact hresources.trans List.perm_middle

/-- A careful call accounts for all resources. -/
theorem Accounted.step {s' : Handles} {a : Action} {o : Outcome (Option ℕ)} (hcareful : s.Careful a)
    (hstep : s.step a = some (o, s')) : s'.Accounted := by
  cases a with
  | get made =>
    rcases step_get_cases hstep with ⟨hcalls, -, rfl⟩ | ⟨hcalls, hmade, -⟩ | ⟨-, rfl⟩ | ⟨-, ptr, rest, hcons, rfl⟩
    · exact h.make hcalls.1
    · exact absurd (hcareful hcalls) hmade
    · exact ⟨h.numBorrowed, h.resources⟩
    · exact h.take hcons _
  | wake =>
    rw [Handles.step] at hstep
    split_ifs at hstep with hwaits
    obtain ⟨ptr, rest, hcons⟩ := List.exists_cons_of_ne_nil hwaits.2
    rw [ResourcePool.wake, ResourcePool.take, hcons] at hstep
    cases hstep
    exact h.take hcons _
  | tryGet =>
    rw [Handles.step, ResourcePool.tryGet] at hstep
    split_ifs at hstep with hpool
    · cases hstep
      exact h
    · obtain ⟨ptr, rest, hcons⟩ := List.exists_cons_of_ne_nil hpool
      rw [ResourcePool.take, hcons] at hstep
      cases hstep
      exact h.take hcons _
  | moveConstruct other =>
    obtain ⟨ptr, hptr, heq⟩ := Option.map_eq_some_iff.1 hstep
    cases heq
    obtain ⟨A, B, hl⟩ := NodeList.exists_of_deref hptr
    refine h.move ?_
    rw [pointers_pushBack, NodeList.nodes_modify hl, held, hl]
    refine List.perm_append_comm.trans (.trans (.append_left _ ?_) (pointers_perm A B other ptr).symm)
    exact pointers_perm A B other none
  | moveAssign this other =>
    obtain ⟨old, hold, hstep⟩ := Option.bind_eq_some_iff.1 hstep
    obtain ⟨ptr, hptr, heq⟩ := Option.map_eq_some_iff.1 hstep
    cases heq
    refine h.move ?_
    by_cases hself : this = other
    · subst hself
      rw [pointers_assign_self hptr]
      exact .refl _
    · have hempty := hcareful.resolve_left hself
      cases hold.symm.trans hempty
      exact pointers_assign hself hold hptr
  | destroy this =>
    obtain ⟨ptr, hptr, heq⟩ := Option.map_eq_some_iff.1 hstep
    obtain ⟨A, B, hl⟩ := NodeList.exists_of_deref hptr
    cases ptr with
    | none =>
      cases heq
      refine h.move ?_
      rw [NodeList.nodes_erase hl, held, hl]
      exact (pointers_perm A B this none).symm
    | some res =>
      cases heq
      exact h.put hl

/-- A call that is not careful leaves one resource too many counted. -/
theorem Accounted.not_step {s' : Handles} {a : Action} {o : Outcome (Option ℕ)} (hcareless : ¬s.Careful a)
    (hstep : s.step a = some (o, s')) : ¬s'.Accounted := by
  intro h'
  cases a with
  | get made =>
    rw [Careful, Classical.not_imp] at hcareless
    rcases step_get_cases hstep with ⟨-, hmade, -⟩ | ⟨-, -, hheld, hcount⟩ | ⟨hnot, -⟩ | ⟨hnot, -⟩
    · exact hcareless.2 hmade
    · have heq := h'.numBorrowed
      rw [hheld, hcount, h.numBorrowed] at heq
      exact Nat.succ_ne_self _ heq
    · exact hnot hcareless.1
    · exact hnot hcareless.1
  | moveAssign this other =>
    rw [Careful, not_or] at hcareless
    obtain ⟨old, hold, hstep⟩ := Option.bind_eq_some_iff.1 hstep
    obtain ⟨ptr, hptr, heq⟩ := Option.map_eq_some_iff.1 hstep
    cases heq
    -- What the handle held is not held any more, but the pool still counts it.
    have hlen := (pointers_assign hcareless.1 hold hptr).length_eq
    have hone : ([old].filter Option.isSome).length = 1 := by
      cases old with
      | none => exact absurd hold hcareless.2
      | some res => rfl
    have hbefore := h.numBorrowed
    have hafter := h'.numBorrowed
    rw [held] at hbefore hafter
    rw [List.length_append, hone] at hlen
    dsimp only at hafter
    omega
  | wake => exact hcareless trivial
  | tryGet => exact hcareless trivial
  | moveConstruct other => exact hcareless trivial
  | destroy this => exact hcareless trivial

end Calls

theorem accounted_init (targetSize maxSize : ℕ) : Accounted { pool := { targetSize, maxSize } } :=
  ⟨rfl, .refl _⟩

/-- Every resource is accounted for, in every state of a run, if and only if its assignments are to handles that
    hold nothing, or to themselves, and `make()` gives a resource whenever `get` calls it. -/
theorem accounted_iff {targetSize maxSize : ℕ} {actions : List Action} {outs : List (Outcome (Option ℕ))}
    {s : Handles} (h : exec step { pool := { targetSize, maxSize } } actions = some (outs, s)) :
    Throughout step Accounted { pool := { targetSize, maxSize } } actions ↔
      Along step Careful { pool := { targetSize, maxSize } } actions :=
  throughout_iff_along_of_exec Accounted (fun _ h => h) (fun _ _ _ _ h hcareful hstep => h.step hcareful hstep)
    (fun _ _ _ _ h hcareless hstep => h.not_step hcareless hstep) (accounted_init targetSize maxSize) h

/-- Two resources, one of which is passed on to a third handle, and back to the first one. -/
theorem accounted_iff_moves :
    let actions : List Action := [.get .resource, .get .resource, .moveConstruct 0, .moveAssign 0 2,
      .moveAssign 1 1, .destroy 2, .destroy 1, .destroy 0]
    ∃ outs s, exec step { pool := { targetSize := 1, maxSize := 2 } } actions = some (outs, s) ∧
      Throughout step Accounted { pool := { targetSize := 1, maxSize := 2 } } actions := by
  intro actions
  exact ⟨_, _, rfl, (accounted_iff rfl).2 (by decide)⟩

/-- A handle that holds a resource is assigned to: the pool counts two of them, where only one is left. -/
theorem not_accounted_assign :
    let actions : List Action := [.get .resource, .get .resource, .moveAssign 0 1]
    ∃ outs s, exec step { pool := { targetSize := 2, maxSize := 2 } } actions = some (outs, s) ∧
      s.pool.numBorrowed = 2 ∧ s.held = [some 1] ∧ s.pool.pool = [] ∧ s.dropped = [] ∧ ¬s.Accounted := by
  intro actions
  refine ⟨_, _, rfl, rfl, rfl, rfl, rfl, fun h => ?_⟩
  exact absurd h.numBorrowed (by decide)

end Handles

end Cppnet.Util
