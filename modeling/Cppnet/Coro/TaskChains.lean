import Cppnet.Coro.Task
import Mathlib.Order.Nat

/-!
# Chains of tasks

The frames of a task that has not ended are a chain: from the one in an operation, or running, over the
continuations up to that of the task itself, each of them awaiting the one below it (`Chained`), and there are no
other ones. What the chain still has to do is a program: the code at its lower end, and then what each frame does
with the result of the one below (`unwind`).

* `goes`: a coroutine that runs, at the lower end of a chain, comes to an operation or to the end of its task, and
  leaves the program as it is, and the frames of other tasks.
-/

namespace Cppnet.Coro.Tasks

open Lib

variable {ν ε α ρ : Type} [Inhabited ν]

/-- What a coroutine does, if `co_await` of a task is taken for a call. -/
def Body.direct : Body ν ε α ρ → Program α ρ (Outcome ν ε)
  | ret v => .done (.ok v)
  | throw e => .done (.error e)
  | await isVoid child next => child.direct.bind fun o => (next (Promise.seen isVoid o)).direct
  | suspend op next => .ask op fun r => (next r).direct

/-- What a task does. -/
def Body.program (isVoid : Bool) (b : Body ν ε α ρ) : Program α ρ (Outcome ν ε) :=
  b.direct.bind fun o => .done (Promise.seen isVoid o)

/-- A frame that awaits another one: its handle, and what it does with the result. -/
structure Wait (ν ε α ρ : Type) where
  handle : ℕ
  isVoid : Bool
  next : Outcome ν ε → Body ν ε α ρ

/-- What is still to be done by a coroutine with the code `b`, and by those that await it. -/
def unwind : Bool → List (Wait ν ε α ρ) → Body ν ε α ρ → Program α ρ (Outcome ν ε)
  | isVoid, [], b => b.program isVoid
  | isVoid, w :: ws, b => b.direct.bind fun o => unwind w.isVoid ws (w.next (Promise.seen isVoid o))

theorem unwind_await (isVoid isVoid' : Bool) (ws : List (Wait ν ε α ρ)) (h : ℕ) (child : Body ν ε α ρ)
    (next : Outcome ν ε → Body ν ε α ρ) :
    unwind isVoid' (⟨h, isVoid, next⟩ :: ws) child = unwind isVoid ws (.await isVoid' child next) := by
  cases ws with
  | nil => rw [unwind, unwind, Body.program, Body.direct, Program.bind_assoc]; rfl
  | cons w ws => rw [unwind, unwind, Body.direct, Program.bind_assoc]; rfl

theorem unwind_suspend (isVoid : Bool) (ws : List (Wait ν ε α ρ)) (op : α) (next : ρ → Body ν ε α ρ) :
    unwind isVoid ws (.suspend op next) = .ask op fun r => unwind isVoid ws (next r) := by
  cases ws <;> rfl

/-! ## Chains -/

section Chains

omit [Inhabited ν]

variable {g g' : ℕ → Option (Frame ν ε α ρ)} {root h : ℕ} {v : Bool} {ws : List (Wait ν ε α ρ)}

/-- From the frame `h` up to that of the task, over those of `ws`. -/
def Chained (g : ℕ → Option (Frame ν ε α ρ)) (root : ℕ) : ℕ → Bool → List (Wait ν ε α ρ) → Prop
  | h, v, [] => h = root ∧ ∃ f, g h = some f ∧ f.promise = .new v ∧ f.continuation = none
  | h, v, w :: ws => w.handle < h ∧ (∃ f, g h = some f ∧ f.promise = .new v ∧ f.continuation = some w.handle) ∧
      (∃ f, g w.handle = some f ∧ f.point = .awaiting h w.next) ∧ Chained g root w.handle w.isVoid ws

/-- The frames of a task are those of a chain. -/
structure Held (g : ℕ → Option (Frame ν ε α ρ)) (root h : ℕ) (v : Bool) (ws : List (Wait ν ε α ρ)) : Prop where
  chained : Chained g root h v ws
  isSome_iff : ∀ x, (g x).isSome ↔ x ∈ h :: ws.map Wait.handle

theorem Chained.exists_frame (hc : Chained g root h v ws) :
    ∃ f, g h = some f ∧ f.promise = .new v ∧ f.continuation = (ws.head?.map Wait.handle) := by
  cases ws with
  | nil => exact hc.2
  | cons w ws => exact hc.2.1

/-- None of the frames has a result. -/
theorem Chained.promise (hc : Chained g root h v ws) :
    ∀ x ∈ h :: ws.map Wait.handle, ∃ f v', g x = some f ∧ f.promise = .new v' := by
  induction ws generalizing h v with
  | nil =>
    obtain ⟨f, hf, hpromise, -⟩ := hc.exists_frame
    intro x hx
    rw [List.mem_singleton.1 hx]
    exact ⟨f, v, hf, hpromise⟩
  | cons w ws ih =>
    obtain ⟨f, hf, hpromise, -⟩ := hc.exists_frame
    rw [List.forall_mem_cons]
    exact ⟨⟨f, v, hf, hpromise⟩, ih hc.2.2.2⟩

/-- Nobody awaits the task itself. -/
theorem Chained.continuation_root (hc : Chained g root h v ws) : ∃ f, g root = some f ∧ f.continuation = none := by
  induction ws generalizing h v with
  | nil =>
    obtain ⟨rfl, f, hf, -, hcontinuation⟩ := hc
    exact ⟨f, hf, hcontinuation⟩
  | cons w ws ih => exact ih hc.2.2.2

theorem Chained.handle_lt (hc : Chained g root h v ws) : ∀ w ∈ ws, w.handle < h := by
  induction ws generalizing h v with
  | nil => simp
  | cons w ws ih =>
    rw [List.forall_mem_cons]
    exact ⟨hc.1, fun w' hw' => (ih hc.2.2.2 w' hw').trans hc.1⟩

theorem Chained.nodup (hc : Chained g root h v ws) : (h :: ws.map Wait.handle).Nodup := by
  induction ws generalizing h v with
  | nil => simp
  | cons w ws ih =>
    refine List.nodup_cons.2 ⟨fun hmem => ?_, ih hc.2.2.2⟩
    obtain ⟨w', hw', heq⟩ := List.mem_map.1 hmem
    exact (hc.handle_lt w' hw').ne heq

theorem Chained.awaiting (hc : Chained g root h v ws) :
    ∀ w ∈ ws, ∃ f child, g w.handle = some f ∧ f.point = .awaiting child w.next := by
  induction ws generalizing h v with
  | nil => simp
  | cons w ws ih =>
    obtain ⟨-, -, ⟨f, hf, hpoint⟩, hc'⟩ := hc
    rw [List.forall_mem_cons]
    exact ⟨⟨f, h, hf, hpoint⟩, ih hc'⟩

theorem Chained.length_le (hc : Chained g root h v ws) : ws.length ≤ h := by
  induction ws generalizing h v with
  | nil => exact Nat.zero_le h
  | cons w ws ih => exact Nat.succ_le_of_lt ((ih hc.2.2.2).trans_lt hc.1)

/-- The task itself has not ended, if the lower end has not. -/
theorem Chained.exists_root (hc : Chained g root h v ws) {f : Frame ν ε α ρ} (hf : g h = some f)
    (hpoint : f.point ≠ .done) : ∃ fr, g root = some fr ∧ fr.point ≠ .done := by
  induction ws generalizing h v f with
  | nil => exact ⟨f, hc.1 ▸ hf, hpoint⟩
  | cons w ws ih =>
    obtain ⟨-, -, ⟨f', hf', hpoint'⟩, hc'⟩ := hc
    exact ih hc' hf' (by simp [hpoint'])

/-- A chain is one in frames that are the same, but for where the lower end is. -/
theorem Chained.congr (hc : Chained g root h v ws) (hws : ∀ w ∈ ws, g' w.handle = g w.handle) {f' : Frame ν ε α ρ}
    (hf' : g' h = some f') (hpromise : f'.promise = .new v)
    (hcontinuation : f'.continuation = ws.head?.map Wait.handle) : Chained g' root h v ws := by
  induction ws generalizing h v f' with
  | nil => exact ⟨hc.1, f', hf', hpromise, hcontinuation⟩
  | cons w ws ih =>
    rw [List.forall_mem_cons] at hws
    obtain ⟨hlt, -, ⟨f, hf, hpoint⟩, hc'⟩ := hc
    obtain ⟨f₁, hf₁, hpromise₁, hcontinuation₁⟩ := hc'.exists_frame
    exact ⟨hlt, ⟨f', hf', hpromise, hcontinuation⟩, ⟨f, hws.1.trans hf, hpoint⟩,
      ih hc' hws.2 (hws.1.trans hf₁) hpromise₁ hcontinuation₁⟩

/-- The coroutine at the lower end gets to another point. -/
theorem Held.setPoint (hh : Held g root h v ws) {f : Frame ν ε α ρ} (hf : g h = some f) (point : Point ν ε α ρ) :
    Held (Function.update g h (some { f with point })) root h v ws := by
  obtain ⟨f₁, hf₁, hpromise, hcontinuation⟩ := hh.chained.exists_frame
  cases hf.symm.trans hf₁
  refine ⟨hh.chained.congr (fun w hw => ?_) (Function.update_self ..) hpromise hcontinuation, fun x => ?_⟩
  · exact Function.update_of_ne (hh.chained.handle_lt w hw).ne _ _
  · rw [← hh.isSome_iff]
    by_cases hx : x = h
    · subst hx
      rw [Function.update_self, hf]
      rfl
    · rw [Function.update_of_ne hx]

/-- It awaits a new task. -/
theorem Held.push (hh : Held g root h v ws) {f : Frame ν ε α ρ} (hf : g h = some f) {n : ℕ} (hn : h < n) (v' : Bool)
    (next : Outcome ν ε → Body ν ε α ρ) (point : Point ν ε α ρ) :
    Held (Function.update (Function.update g h (some { f with point := .awaiting n next })) n
      (some ⟨.new v', some h, point⟩)) root n v' (⟨h, v, next⟩ :: ws) := by
  have hh' := hh.setPoint hf (.awaiting n next)
  obtain ⟨f', hf', hpromise, hcontinuation⟩ := hh'.chained.exists_frame
  have hne : ∀ {x}, x ≤ h → x ≠ n := fun hx => (hx.trans_lt hn).ne
  refine ⟨⟨hn, ⟨_, Function.update_self .., rfl, rfl⟩, ?_, ?_⟩, fun x => ?_⟩
  · rw [Function.update_of_ne (hne le_rfl)]
    exact ⟨_, Function.update_self .., rfl⟩
  · refine hh'.chained.congr (fun w hw => ?_) (show _ = some f' from ?_) hpromise hcontinuation
    · exact Function.update_of_ne (hne (hh'.chained.handle_lt w hw).le) _ _
    · rw [Function.update_of_ne (hne le_rfl)]
      exact hf'
  · by_cases hx : x = n
    · subst hx
      simp
    · rw [Function.update_of_ne hx, hh'.isSome_iff, List.map_cons, List.mem_cons (a := x) (b := n), or_iff_right hx]

/-- It has ended, and is destroyed by who awaited it. -/
theorem Held.pop {w : Wait ν ε α ρ} (hh : Held g root h v (w :: ws)) {f : Frame ν ε α ρ} (hf : g w.handle = some f)
    (point : Point ν ε α ρ) :
    Held (Function.update (Function.update g h none) w.handle (some { f with point })) root w.handle w.isVoid ws := by
  obtain ⟨hlt, -, -, hc⟩ := hh.chained
  have hheld : Held (Function.update g h none) root w.handle w.isVoid ws := by
    obtain ⟨f', hf', hpromise, hcontinuation⟩ := hc.exists_frame
    refine ⟨hc.congr (fun w' hw' => ?_) (show _ = some f' from ?_) hpromise hcontinuation, fun x => ?_⟩
    · exact Function.update_of_ne ((hc.handle_lt w' hw').trans hlt).ne _ _
    · rw [Function.update_of_ne hlt.ne]
      exact hf'
    · by_cases hx : x = h
      · subst hx
        rw [Function.update_self]
        refine iff_of_false (by simp) ?_
        rw [List.mem_cons, List.mem_map, not_or]
        refine ⟨hlt.ne', ?_⟩
        rintro ⟨w', hw', hh'⟩
        exact ((hc.handle_lt w' hw').trans hlt).ne hh'
      · rw [Function.update_of_ne hx, hh.isSome_iff, List.map_cons, List.mem_cons (a := x) (b := h),
          or_iff_right hx]
  have hf' : Function.update g h none w.handle = some f := by
    rw [Function.update_of_ne hlt.ne]
    exact hf
  exact hheld.setPoint hf' point

end Chains

/-! ## The frames of a task -/

section Views

omit [Inhabited ν]

variable {frames : List (Option (Frame ν ε α ρ))} {o : ℕ → ℕ} {i j h : ℕ} {f : Frame ν ε α ρ}

/-- The frames that belong to the task `i`, if `o` gives the task that a frame belongs to. -/
def view (frames : List (Option (Frame ν ε α ρ))) (o : ℕ → ℕ) (i : ℕ) : ℕ → Option (Frame ν ε α ρ) :=
  fun x => if o x = i then frames[x]?.join else none

theorem view_eq_some (hf : view frames o i h = some f) :
    o h = i ∧ frames[h]?.join = some f ∧ h < frames.length := by
  rw [view] at hf
  split_ifs at hf with ho
  obtain ⟨hlt, -⟩ := List.getElem?_eq_some_iff.1 (Option.join_eq_some_iff.1 hf)
  exact ⟨ho, hf, hlt⟩

theorem view_set (ho : o h = i) (hlt : h < frames.length) (x : Option (Frame ν ε α ρ)) :
    view (frames.set h x) o i = Function.update (view frames o i) h x := by
  funext y
  by_cases hy : y = h
  · subst hy
    rw [Function.update_self, view, if_pos ho, List.getElem?_set_self hlt, Option.join_some]
  · rw [Function.update_of_ne hy, view, view, List.getElem?_set_ne (Ne.symm hy)]

theorem view_set_of_ne (ho : o h ≠ j) (x : Option (Frame ν ε α ρ)) :
    view (frames.set h x) o j = view frames o j := by
  funext y
  by_cases hy : y = h
  · subst hy
    rw [view, view, if_neg ho, if_neg ho]
  · rw [view, view, List.getElem?_set_ne (Ne.symm hy)]

theorem getElem?_concat_of_ne {τ : Type} {l : List τ} {n : ℕ} (hn : n ≠ l.length) (x : τ) : (l ++ [x])[n]? = l[n]? := by
  rcases Nat.lt_or_gt_of_ne hn with hlt | hgt
  · exact List.getElem?_append_left hlt
  · rw [List.getElem?_eq_none hgt.le]
    exact List.getElem?_eq_none (by rw [List.length_append]; exact hgt)

/-- A new frame is given to the task `i`. -/
theorem view_concat (x : Option (Frame ν ε α ρ)) :
    view (frames ++ [x]) (Function.update o frames.length i) i =
      Function.update (view frames o i) frames.length x := by
  funext y
  by_cases hy : y = frames.length
  · subst hy
    rw [Function.update_self, view, Function.update_self, if_pos rfl, List.getElem?_concat_length, Option.join_some]
  · rw [Function.update_of_ne hy, view, view, Function.update_of_ne hy, getElem?_concat_of_ne hy]

theorem view_concat_of_ne (hij : i ≠ j) (x : Option (Frame ν ε α ρ)) :
    view (frames ++ [x]) (Function.update o frames.length i) j = view frames o j := by
  funext y
  by_cases hy : y = frames.length
  · subst hy
    rw [view, view, Function.update_self, if_neg hij, List.getElem?_eq_none le_rfl, Option.join_none, ite_self]
  · rw [view, view, Function.update_of_ne hy, getElem?_concat_of_ne hy]

end Views

/-! ## Turns -/

namespace Coroutines

variable {s : Coroutines ν ε α ρ} {o : ℕ → ℕ} {i root h : ℕ} {v : Bool} {ws : List (Wait ν ε α ρ)}
  {f : Frame ν ε α ρ}

omit [Inhabited ν] in
theorem goOn_eq (hf : s.frames[h]?.join = some f) (b : Body ν ε α ρ) :
    s.goOn h b = some { s with
      frames := s.frames.set h (some { f with point := .running }), running := some (h, b) } := by
  rw [goOn, frame, hf]
  rfl

omit [Inhabited ν] in
/-- A frame that awaits nothing is destroyed alone. -/
theorem destroy_eq (hf : s.frames[h]?.join = some f) (hpoint : ∀ c next, f.point ≠ .awaiting c next) :
    s.destroy h = some { s with frames := s.frames.set h none } := by
  obtain ⟨hlt, -⟩ := List.getElem?_eq_some_iff.1 (Option.join_eq_some_iff.1 hf)
  obtain ⟨n, hn⟩ := Nat.exists_eq_succ_of_ne_zero (Nat.ne_zero_of_lt hlt)
  rw [destroy, hn, destroyFrom, hf]
  obtain ⟨promise, continuation, point⟩ := f
  cases point with
  | awaiting c next => exact absurd rfl (hpoint c next)
  | _ => rfl

/-- A coroutine in an operation. -/
theorem turn_suspend {op : α} {next : ρ → Body ν ε α ρ} (hrun : s.running = some (h, .suspend op next))
    (hf : s.frames[h]?.join = some f) :
    s.turn = some (.next { s with
      frames := s.frames.set h (some { f with point := .suspended op next }), running := none }) := by
  rw [turn, hrun]
  dsimp only
  rw [frame, hf]
  rfl

/-- A coroutine awaits a call of another one, which begins. -/
theorem turn_await {v' : Bool} {child : Body ν ε α ρ} {next : Outcome ν ε → Body ν ε α ρ}
    (hrun : s.running = some (h, .await v' child next)) (hf : view s.frames o i h = some f) :
    ∃ s₁, s.turn = some (.next s₁) ∧ s₁.running = some (s.frames.length, child) ∧ s₁.tasks = s.tasks ∧
      (∀ j ≠ i, view s₁.frames (Function.update o s.frames.length i) j = view s.frames o j) ∧
      view s₁.frames (Function.update o s.frames.length i) i =
        Function.update (Function.update (view s.frames o i) h
          (some { f with point := .awaiting s.frames.length next })) s.frames.length
          (some ⟨.new v', some h, .running⟩) := by
  obtain ⟨ho, hframe, hlt⟩ := view_eq_some hf
  set n := s.frames.length with hn
  set o' := Function.update o n i with ho'
  have hoh : o' h = i := (Function.update_of_ne hlt.ne i o).trans ho
  have hon : o' n = i := Function.update_self ..
  -- The new frame is at its start, and then gets its continuation and begins.
  let frames₀ : List (Option (Frame ν ε α ρ)) := s.frames ++ [some ⟨.new v', none, .start child⟩]
  let frames₁ := frames₀.set h (some { f with point := .awaiting n next })
  let frames₂ := frames₁.set n (some ⟨.new v', some h, .start child⟩)
  let frames₃ := frames₂.set n (some ⟨.new v', some h, .running⟩)
  have hlen : frames₀.length = n + 1 := List.length_append
  have h₀n : frames₀[n]?.join = some ⟨.new v', none, .start child⟩ := by
    rw [hn, List.getElem?_concat_length, Option.join_some]
  have h₀h : frames₀[h]?.join = some f := by
    rw [List.getElem?_append_left hlt]
    exact hframe
  have h₂n : frames₂[n]?.join = some ⟨.new v', some h, .start child⟩ := by
    rw [List.getElem?_set_self (by rw [List.length_set, hlen]; exact n.lt_succ_self), Option.join_some]
  refine ⟨⟨frames₃, some (n, child), s.tasks⟩, ?_, rfl, rfl, fun j hj => ?_, ?_⟩
  · have hready : awaitReady { s with frames := frames₀ } n = false := by
      rw [awaitReady, frame, h₀n]
    have hresume : resume { s with frames := frames₂ } n none =
        some ⟨frames₃, some (n, child), s.tasks⟩ := by
      rw [resume, frame, h₂n]
      exact goOn_eq (s := { s with frames := frames₂ }) h₂n child
    rw [turn, hrun]
    dsimp only [create]
    rw [if_neg (by rw [← hn, hready]; simp), awaitSuspend, frame, frame, ← hn, h₀n, h₀h]
    exact Option.map_eq_some_iff.2 ⟨_, hresume, rfl⟩
  · rw [view_set_of_ne (by rw [hon]; exact hj.symm), view_set_of_ne (by rw [hon]; exact hj.symm),
      view_set_of_ne (by rw [hoh]; exact hj.symm), view_concat_of_ne hj.symm]
  · have hlt₀ : h < frames₀.length := by rw [hlen]; omega
    rw [view_set hon (by rw [List.length_set, List.length_set, hlen]; exact n.lt_succ_self),
      view_set hon (by rw [List.length_set, hlen]; exact n.lt_succ_self), view_set hoh hlt₀, view_concat,
      Function.update_idem, Function.update_comm hlt.ne', Function.update_idem]

/-- A task ends. -/
theorem finish_root {store : Promise ν ε → Promise ν ε} (hf : s.frames[h]?.join = some f)
    (hcontinuation : f.continuation = none) :
    s.finish h store = some { s with
      frames := s.frames.set h (some { f with promise := store f.promise, point := .done }), running := none } := by
  rw [finish, frame, hf]
  obtain ⟨promise, continuation, point⟩ := f
  cases hcontinuation
  rfl

/-- A coroutine ends that another one awaits. -/
theorem finish_child {store : Promise ν ε → Promise ν ε} {c : ℕ} {g : Frame ν ε α ρ} {next : Outcome ν ε → Body ν ε α ρ}
    (hf : s.frames[h]?.join = some f) (hcontinuation : f.continuation = some c) (hne : c ≠ h)
    (hg : s.frames[c]?.join = some g) (hpoint : g.point = .awaiting h next) :
    s.finish h store = some ⟨(s.frames.set h none).set c (some { g with point := .running }),
      some (c, next (store f.promise).result), s.tasks⟩ := by
  obtain ⟨hlt, -⟩ := List.getElem?_eq_some_iff.1 (Option.join_eq_some_iff.1 hf)
  obtain ⟨promise, continuation, point⟩ := f
  cases hcontinuation
  let frames₁ := s.frames.set h (some ⟨store promise, some c, .done⟩)
  have h₁h : frames₁[h]?.join = some ⟨store promise, some c, .done⟩ := by
    rw [List.getElem?_set_self hlt, Option.join_some]
  have h₁c : frames₁[c]?.join = some g := by
    rw [List.getElem?_set_ne hne.symm]
    exact hg
  have hdestroy : destroy { s with frames := frames₁ } h = some { s with frames := s.frames.set h none } := by
    rw [destroy_eq h₁h (fun c next => by simp), List.set_set]
  have hgoOn : goOn { s with frames := s.frames.set h none } c (next (store promise).result) =
      some ⟨(s.frames.set h none).set c (some { g with point := .running }), some (c, next (store promise).result),
        s.tasks⟩ := by
    refine goOn_eq ?_ _
    rw [List.getElem?_set_ne hne.symm]
    exact hg
  rw [finish, frame, hf]
  change resume { s with frames := frames₁ } c none = _
  rw [resume, frame, h₁c]
  obtain ⟨promise', continuation', point'⟩ := g
  cases hpoint
  change awaitResume { s with frames := frames₁ } c h next = _
  rw [awaitResume, frame, h₁h]
  change (destroy { s with frames := frames₁ } h).bind (fun s => s.goOn c (next (store promise).result)) = _
  rw [hdestroy, Option.bind_some, hgoOn]

/-! ## Up to the next operation -/

omit [Inhabited ν] in
/-- The tasks but `i` have the frames that they had. -/
structure Kept (i : ℕ) (s : Coroutines ν ε α ρ) (o : ℕ → ℕ) (s' : Coroutines ν ε α ρ) (o' : ℕ → ℕ) : Prop where
  view : ∀ j ≠ i, view s'.frames o' j = view s.frames o j
  tasks : s'.tasks = s.tasks

omit [Inhabited ν] in
theorem Kept.trans {s₁ s₂ : Coroutines ν ε α ρ} {o₁ o₂ : ℕ → ℕ} (h : Kept i s o s₁ o₁) (h' : Kept i s₁ o₁ s₂ o₂) :
    Kept i s o s₂ o₂ :=
  ⟨fun j hj => (h'.view j hj).trans (h.view j hj), h'.tasks.trans h.tasks⟩

/-- A task with nothing running: it is in an operation, or has ended. -/
inductive Settled (g : ℕ → Option (Frame ν ε α ρ)) (root : ℕ) : Program α ρ (Outcome ν ε) → Prop
  | asks {h : ℕ} {v : Bool} {ws : List (Wait ν ε α ρ)} {f : Frame ν ε α ρ} {op : α} {next : ρ → Body ν ε α ρ} :
      Held g root h v ws → g h = some f → f.point = .suspended op next →
      Settled g root (.ask op fun r => unwind v ws (next r))
  | ended {f : Frame ν ε α ρ} : g root = some f → f.point = .done → (∀ x, (g x).isSome ↔ x = root) →
      Settled g root (.done f.promise.result)

/-- The task `i` comes to where it has the program `p` to do. -/
def Goes (s : Coroutines ν ε α ρ) (o : ℕ → ℕ) (i root : ℕ) (p : Program α ρ (Outcome ν ε)) : Prop :=
  ∃ s' o', Loop.Returns turn s s' ∧ Kept i s o s' o' ∧ s'.running = none ∧ Settled (view s'.frames o' i) root p

theorem Goes.next {s₁ : Coroutines ν ε α ρ} {o₁ : ℕ → ℕ} {p : Program α ρ (Outcome ν ε)}
    (hturn : s.turn = some (.next s₁)) (hkept : Kept i s o s₁ o₁) (h : Goes s₁ o₁ i root p) : Goes s o i root p := by
  obtain ⟨s', o', hreturns, hkept', h⟩ := h
  exact ⟨s', o', .next hturn hreturns, hkept.trans hkept', h⟩

theorem Goes.stop {s₁ : Coroutines ν ε α ρ} {o₁ : ℕ → ℕ} {p : Program α ρ (Outcome ν ε)}
    (hturn : s.turn = some (.next s₁)) (hkept : Kept i s o s₁ o₁) (hrun : s₁.running = none)
    (h : Settled (Tasks.view s₁.frames o₁ i) root p) : Goes s o i root p := by
  refine ⟨s₁, o₁, .next hturn (.done ?_), hkept, hrun, h⟩
  rw [turn, hrun]

/-- Whatever comes of what the first of `ws` awaits, it goes on from there. -/
def Continues (i root : ℕ) : List (Wait ν ε α ρ) → Prop
  | [] => True
  | w :: ws => ∀ (outcome : Outcome ν ε) (s : Coroutines ν ε α ρ) (o : ℕ → ℕ),
      s.running = some (w.handle, w.next outcome) → Held (Tasks.view s.frames o i) root w.handle w.isVoid ws →
      Goes s o i root (unwind w.isVoid ws (w.next outcome))

/-- A coroutine ends, and the result is seen by who awaits it. -/
theorem goes_finish (hheld : Held (Tasks.view s.frames o i) root h v ws) (hcont : Continues i root ws)
    {store : Promise ν ε → Promise ν ε} {outcome : Outcome ν ε} {b : Body ν ε α ρ}
    (hturn : s.turn = (s.finish h store).map .next)
    (hresult : (store (.new v)).result = Promise.seen v outcome) (hb : b.direct = .done outcome) :
    Goes s o i root (unwind v ws b) := by
  obtain ⟨f, hf, hpromise, hcontinuation⟩ := hheld.chained.exists_frame
  obtain ⟨ho, hframe, hlt⟩ := view_eq_some hf
  rw [← hpromise] at hresult
  cases ws with
  | nil =>
    obtain ⟨rfl, -⟩ := hheld.chained
    rw [finish_root hframe hcontinuation, Option.map_some] at hturn
    refine .stop hturn ⟨fun j hj => view_set_of_ne (by rw [ho]; exact hj.symm) _, rfl⟩ rfl ?_
    have hend : unwind v [] b = .done (store f.promise).result := by
      rw [unwind, Body.program, hb, hresult]
      rfl
    rw [hend, view_set ho hlt]
    refine .ended (f := { f with promise := store f.promise, point := .done }) (Function.update_self ..) rfl
      fun x => ?_
    have hsome := hheld.isSome_iff x
    rw [List.map_nil, List.mem_singleton] at hsome
    by_cases hx : x = h
    · subst hx
      simp
    · rwa [Function.update_of_ne hx]
  | cons w ws =>
    obtain ⟨hltw, -, ⟨fw, hfw, hpoint⟩, -⟩ := hheld.chained
    obtain ⟨how, hframew, hltw'⟩ := view_eq_some hfw
    rw [finish_child hframe hcontinuation hltw.ne hframew hpoint, Option.map_some] at hturn
    have hgo : unwind v (w :: ws) b = unwind w.isVoid ws (w.next (store f.promise).result) := by
      rw [unwind, hb, hresult]
      rfl
    rw [hgo]
    have hlen : w.handle < (s.frames.set h none).length := by rwa [List.length_set]
    refine .next hturn (show Kept i s o _ o from ⟨fun j hj => ?_, rfl⟩) (hcont _ _ o rfl ?_)
    · rw [view_set_of_ne (by rw [how]; exact hj.symm), view_set_of_ne (by rw [ho]; exact hj.symm)]
    · rw [view_set how hlen, view_set ho hlt]
      exact hheld.pop hfw .running

/-- A coroutine that runs comes to an operation, or to the end of its task. -/
theorem goes_of_continues (b : Body ν ε α ρ) : ∀ {s : Coroutines ν ε α ρ} {o : ℕ → ℕ} {h : ℕ} {v : Bool}
    {ws : List (Wait ν ε α ρ)}, s.running = some (h, b) → Held (Tasks.view s.frames o i) root h v ws →
    Continues i root ws → Goes s o i root (unwind v ws b) := by
  induction b with
  | ret x =>
    intro s o h v ws hrun hheld hcont
    refine goes_finish hheld hcont (by rw [turn, hrun]) (Promise.result_returnValue v x) rfl
  | throw e =>
    intro s o h v ws hrun hheld hcont
    exact goes_finish hheld hcont (by rw [turn, hrun]) (Promise.result_unhandledException v e) rfl
  | await v' child next ihchild ihnext =>
    intro s o h v ws hrun hheld hcont
    obtain ⟨f, hf, -⟩ := hheld.chained.exists_frame
    obtain ⟨s₁, hturn, hrun₁, htasks, hothers, hview⟩ := turn_await hrun hf
    rw [← unwind_await v v' ws h child next]
    refine .next hturn ⟨hothers, htasks⟩ (ihchild hrun₁ ?_ fun outcome s₂ o₂ hrun₂ hheld₂ => ?_)
    · rw [hview]
      exact hheld.push hf (view_eq_some hf).2.2 v' next .running
    · exact ihnext outcome hrun₂ hheld₂ hcont
  | suspend op next ih =>
    intro s o h v ws hrun hheld hcont
    obtain ⟨f, hf, -⟩ := hheld.chained.exists_frame
    obtain ⟨ho, hframe, hlt⟩ := view_eq_some hf
    refine .stop (turn_suspend hrun hframe) ⟨fun j hj => view_set_of_ne (by rw [ho]; exact hj.symm) _, rfl⟩ rfl ?_
    rw [unwind_suspend, view_set ho hlt]
    exact .asks (hheld.setPoint hf _) (Function.update_self ..) rfl

theorem continues (i root : ℕ) (ws : List (Wait ν ε α ρ)) : Continues i root ws := by
  induction ws with
  | nil => trivial
  | cons w ws ih => exact fun outcome s o hrun hheld => goes_of_continues _ hrun hheld ih

/-- A coroutine that runs comes to an operation, or to the end of its task, with the same to do. -/
theorem goes {b : Body ν ε α ρ} (hrun : s.running = some (h, b)) (hheld : Held (Tasks.view s.frames o i) root h v ws) :
    Goes s o i root (unwind v ws b) :=
  goes_of_continues b hrun hheld (continues i root ws)

end Coroutines

end Cppnet.Coro.Tasks
