import Cppnet.Coro.TaskChains
import Cppnet.Lib.Machine
import Mathlib.Data.List.Nodup

/-!
# Runs of tasks

Tasks are started, and their operations complete, in any order. What is to be seen of that — the operations that they
ask for, and their results — is what is seen of programs side by side, in each of which `co_await` of a task is a
call (`steps_iff`): no resumption is lost, made twice or given to another coroutine, whatever the frames, handles and
continuations in between.

* `frames_below`: no frame is left behind: those of a task that has not ended are those that await each other, down to
  the one in an operation; of one that has ended, there is that of the task itself.
* `resume_early`: a task that is resumed from the outside while it awaits another one does not wait for it. It goes
  on with the error that the value was never set, or, after a task of type `void`, as if that had succeeded; the
  frame that is in an operation is destroyed, though its handle will be resumed when that completes.
-/

namespace Cppnet.Coro.Tasks

open Lib

variable {ν ε α ρ : Type} [Inhabited ν]

namespace Coroutines

variable {s s' : Coroutines ν ε α ρ} {ps : List (Program α ρ (Outcome ν ε))}

/-- The tasks have the programs `ps` to do. -/
structure Does (s : Coroutines ν ε α ρ) (o : ℕ → ℕ) (ps : List (Program α ρ (Outcome ν ε))) : Prop where
  running : s.running = none
  length : s.tasks.length = ps.length
  settled : ∀ i root p, s.tasks[i]? = some root → ps[i]? = some p → Settled (view s.frames o i) root p
  owned : ∀ i, ps.length ≤ i → view s.frames o i = fun _ => none

theorem does_empty : Does (ν := ν) (ε := ε) (α := α) (ρ := ρ) {} id [] :=
  ⟨rfl, rfl, fun i root p h => by simp at h, fun i _ => by funext x; simp [view]⟩

theorem Does.exists_program {o : ℕ → ℕ} (h : s.Does o ps) {i root : ℕ} (hroot : s.tasks[i]? = some root) :
    ∃ p, ps[i]? = some p ∧ Settled (view s.frames o i) root p := by
  obtain ⟨p, hp⟩ : ∃ p, ps[i]? = some p :=
    ⟨_, List.getElem?_eq_getElem (h.length ▸ (List.getElem?_eq_some_iff.1 hroot).1)⟩
  exact ⟨p, hp, h.settled i root p hroot hp⟩

omit [Inhabited ν] in
/-- A task without other frames. -/
theorem held_alone {root : ℕ} {v : Bool} {f : Frame ν ε α ρ} (hpromise : f.promise = .new v)
    (hcontinuation : f.continuation = none) : Held (Function.update (fun _ => none) root (some f)) root root v [] := by
  refine ⟨⟨rfl, f, Function.update_self .., hpromise, hcontinuation⟩, fun x => ?_⟩
  by_cases hx : x = root
  · subst hx
    simp
  · simp [hx]

/-! ## What is shown -/

section Shown

variable {o : ℕ → ℕ} {i root h : ℕ} {v : Bool} {ws : List (Wait ν ε α ρ)} {f : Frame ν ε α ρ}

omit [Inhabited ν] in
theorem leaf_eq (hf : s.frames[h]?.join = some f) (hpoint : ∀ c next, f.point ≠ .awaiting c next) (n : ℕ) :
    s.leaf n h = h := by
  cases n with
  | zero => rfl
  | succ n =>
    rw [leaf, frame, hf]
    obtain ⟨promise, continuation, point⟩ := f
    cases point with
    | awaiting c next => exact absurd rfl (hpoint c next)
    | _ => rfl

omit [Inhabited ν] in
/-- From the frame of the task, the way down the chain leads to its lower end. -/
theorem leaf_add (hc : Chained (view s.frames o i) root h v ws) (n : ℕ) :
    s.leaf (n + ws.length) root = s.leaf n h := by
  induction ws generalizing h v n with
  | nil => rw [hc.1]; rfl
  | cons w ws ih =>
    obtain ⟨-, -, ⟨f, hf, hpoint⟩, hc'⟩ := hc
    rw [List.length_cons, Nat.add_left_comm, Nat.add_comm, ih hc' (n + 1), leaf, frame, (view_eq_some hf).2.1]
    obtain ⟨promise, continuation, point⟩ := f
    cases hpoint
    rfl

omit [Inhabited ν] in
theorem leaf_of_held (hheld : Held (view s.frames o i) root h v ws) (hf : view s.frames o i h = some f)
    (hpoint : ∀ c next, f.point ≠ .awaiting c next) : s.leaf s.frames.length root = h := by
  obtain ⟨-, hframe, hlt⟩ := view_eq_some hf
  obtain ⟨n, hn⟩ := Nat.exists_eq_add_of_le' (hheld.chained.length_le.trans hlt.le)
  rw [hn, leaf_add hheld.chained, leaf_eq hframe hpoint]

/-- What is seen of a task is what is seen of its program. -/
theorem shows_of_settled {p : Program α ρ (Outcome ν ε)} (hp : Settled (view s.frames o i) root p) :
    s.shows root = some p.shows := by
  cases hp with
  | @asks h v ws f op next hheld hf hpoint =>
    obtain ⟨-, hframe, -⟩ := view_eq_some hf
    have hleaf := leaf_of_held hheld hf fun c next' => by simp [hpoint]
    obtain ⟨fr, hfr, hne⟩ := hheld.chained.exists_root hf (by simp [hpoint])
    rw [shows, frame, frame, hleaf, hframe, (view_eq_some hfr).2.1]
    obtain ⟨promise, continuation, point⟩ := f
    obtain ⟨promise', continuation', point'⟩ := fr
    cases hpoint
    cases point' with
    | done => exact absurd rfl hne
    | _ => rfl
  | @ended f hf hpoint _ =>
    rw [shows, frame, (view_eq_some hf).2.1]
    obtain ⟨promise, continuation, point⟩ := f
    cases hpoint
    rfl

end Shown

/-! ## Steps -/

section Steps

variable {o : ℕ → ℕ}

/-- What the task `i` does is done to its program only. -/
theorem Does.of_goes (h : s.Does o ps) {s₁ : Coroutines ν ε α ρ} {o₁ : ℕ → ℕ} {i root : ℕ}
    {p : Program α ρ (Outcome ν ε)} {ps' : List (Program α ρ (Outcome ν ε))} (hgoes : Goes s₁ o₁ i root p)
    (hview : ∀ j ≠ i, view s₁.frames o₁ j = view s.frames o j) (hi : ps'[i]? = some p)
    (hps : ∀ j ≠ i, ps'[j]? = ps[j]?) (hroot : s₁.tasks[i]? = some root)
    (htasks : ∀ j ≠ i, s₁.tasks[j]? = s.tasks[j]?) (hlen : s₁.tasks.length = ps'.length)
    (hle : ps.length ≤ ps'.length) :
    ∃ s' o', Loop.Returns turn s₁ s' ∧ s'.tasks = s₁.tasks ∧ s'.shows root = some p.shows ∧ s'.Does o' ps' := by
  obtain ⟨s', o', hreturns, hkept, hrun, hsettled⟩ := hgoes
  refine ⟨s', o', hreturns, hkept.tasks, shows_of_settled hsettled, hrun, by rw [hkept.tasks, hlen], ?_,
    fun j hj => ?_⟩
  · intro j root' p' hroot' hp'
    rw [hkept.tasks] at hroot'
    by_cases hji : j = i
    · subst hji
      cases hi.symm.trans hp'
      cases hroot.symm.trans hroot'
      exact hsettled
    · rw [hkept.view j hji, hview j hji]
      exact h.settled j root' p' ((htasks j hji).symm.trans hroot') ((hps j hji).symm.trans hp')
  · have hlt := (List.getElem?_eq_some_iff.1 hi).1
    have hji : j ≠ i := by omega
    rw [hkept.view j hji, hview j hji]
    exact h.owned j (hle.trans hj)

/-- A new task begins. -/
theorem Does.start (h : s.Does o ps) (isVoid : Bool) (b : Body ν ε α ρ) :
    ∃ s' o', s.Step (.start (isVoid, b)) (b.program isVoid).shows s' ∧ s'.Does o' (ps ++ [b.program isVoid]) := by
  set n := s.frames.length with hn
  set o₁ := Function.update o n ps.length with ho₁
  have hon : o₁ n = ps.length := Function.update_self ..
  let frames₀ : List (Option (Frame ν ε α ρ)) := s.frames ++ [some ⟨.new isVoid, none, .start b⟩]
  let s₂ : Coroutines ν ε α ρ :=
    ⟨frames₀.set n (some ⟨.new isVoid, none, .running⟩), some (n, b), s.tasks ++ [n]⟩
  have hlt : n < frames₀.length := by
    rw [List.length_append]
    exact n.lt_succ_self
  have hf : frames₀[n]?.join = some ⟨.new isVoid, none, .start b⟩ := by
    rw [hn, List.getElem?_concat_length, Option.join_some]
  have hresume : resume { s with frames := frames₀, tasks := s.tasks ++ [n] } n none = some s₂ := by
    rw [resume, frame, hf]
    exact goOn_eq (s := { s with frames := frames₀, tasks := s.tasks ++ [n] }) hf b
  have hself : view s₂.frames o₁ ps.length =
      Function.update (fun _ => none) n (some ⟨.new isVoid, none, .running⟩) := by
    rw [view_set hon hlt, view_concat, h.owned _ le_rfl, Function.update_idem]
  have hothers : ∀ j ≠ ps.length, view s₂.frames o₁ j = view s.frames o j := by
    intro j hj
    rw [view_set_of_ne (by rw [hon]; exact hj.symm), view_concat_of_ne hj.symm]
  have hheld : Held (view s₂.frames o₁ ps.length) n n isVoid [] := by
    rw [hself]
    exact held_alone rfl rfl
  have htasks : ∀ j ≠ ps.length, (s.tasks ++ [n])[j]? = s.tasks[j]? :=
    fun j hj => getElem?_concat_of_ne (by rwa [h.length]) n
  have hlen : (s.tasks ++ [n]).length = (ps ++ [b.program isVoid]).length := by
    rw [List.length_append, List.length_append, h.length]
    rfl
  obtain ⟨s', o', hreturns, -, hshows, hdoes⟩ := h.of_goes (goes (s := s₂) rfl hheld) hothers
    List.getElem?_concat_length (fun j hj => getElem?_concat_of_ne hj (b.program isVoid))
    (h.length ▸ List.getElem?_concat_length) htasks hlen (by rw [List.length_append]; exact Nat.le_add_right _ _)
  exact ⟨s', o', .start rfl hresume hreturns hshows, hdoes⟩

/-- The operation of a task has completed. -/
theorem Does.reply (h : s.Does o ps) {i : ℕ} {op : α} {next : ρ → Program α ρ (Outcome ν ε)}
    (hi : ps[i]? = some (.ask op next)) (r : ρ) :
    ∃ s' o', s.Step (.reply i r) (next r).shows s' ∧ s'.Does o' (ps.set i (next r)) := by
  obtain ⟨hlt, -⟩ := List.getElem?_eq_some_iff.1 hi
  obtain ⟨root, hroot⟩ : ∃ root, s.tasks[i]? = some root :=
    ⟨_, List.getElem?_eq_getElem (h.length ▸ hlt)⟩
  have hsettled := h.settled i root _ hroot hi
  generalize hg : view s.frames o i = g at hsettled
  cases hsettled with
  | @asks x v ws f op next hheld hf hpoint =>
    subst hg
    obtain ⟨ho, hframe, hltx⟩ := view_eq_some hf
    have hleaf := leaf_of_held hheld hf fun c next' => by simp [hpoint]
    let s₂ : Coroutines ν ε α ρ :=
      { s with frames := s.frames.set x (some { f with point := .running }), running := some (x, next r) }
    have hresume : s.resume (s.leaf s.frames.length root) (some r) = some s₂ := by
      rw [hleaf, resume, frame, hframe]
      obtain ⟨promise, continuation, point⟩ := f
      cases hpoint
      exact goOn_eq hframe (next r)
    have hheld₂ : Held (view s₂.frames o i) root x v ws := by
      rw [view_set ho hltx]
      exact hheld.setPoint hf .running
    obtain ⟨s', o', hreturns, -, hshows, hdoes⟩ := h.of_goes (goes (s := s₂) rfl hheld₂)
      (fun j hj => view_set_of_ne (by rw [ho]; exact hj.symm) _) (List.getElem?_set_self hlt)
      (fun j hj => List.getElem?_set_ne hj.symm) hroot (fun j _ => rfl) (by rw [List.length_set]; exact h.length)
      (by rw [List.length_set])
    exact ⟨s', o', .reply hroot hresume hreturns hshows, hdoes⟩

theorem Step.unique {a : Program.Action ℕ (Bool × Body ν ε α ρ) ρ} {x x' : α ⊕ Outcome ν ε}
    {s₁ s₂ : Coroutines ν ε α ρ} (h : s.Step a x s₁) (h' : s.Step a x' s₂) : x = x' ∧ s₁ = s₂ := by
  cases h with
  | start hcreate hresume hreturns hshows =>
    cases h' with
    | start hcreate' hresume' hreturns' hshows' =>
      cases hcreate.symm.trans hcreate'
      cases hresume.symm.trans hresume'
      cases hreturns.unique hreturns'
      exact ⟨Option.some_inj.1 (hshows.symm.trans hshows'), rfl⟩
  | reply hroot hresume hreturns hshows =>
    cases h' with
    | reply hroot' hresume' hreturns' hshows' =>
      cases hroot.symm.trans hroot'
      cases hresume.symm.trans hresume'
      cases hreturns.unique hreturns'
      exact ⟨Option.some_inj.1 (hshows.symm.trans hshows'), rfl⟩

variable {a : Program.Action ℕ (Bool × Body ν ε α ρ) ρ} {x : α ⊕ Outcome ν ε}

/-- The action, done to the programs. -/
def program (a : Program.Action ℕ (Bool × Body ν ε α ρ) ρ) :
    Program.Action ℕ (Program α ρ (Outcome ν ε)) ρ := a.map fun q => q.2.program q.1

/-- What the programs can do, the tasks do. -/
theorem Does.step_of_program (h : s.Does o ps) {ps' : List (Program α ρ (Outcome ν ε))}
    (hstep : Program.step ps (program a) = some (x, ps')) : ∃ s' o', s.Step a x s' ∧ s'.Does o' ps' := by
  cases a with
  | start q =>
    cases hstep
    exact h.start q.1 q.2
  | reply i r =>
    obtain ⟨p', hp', heq⟩ := Option.map_eq_some_iff.1 hstep
    cases heq
    obtain ⟨p, hp, hreply⟩ := Option.bind_eq_some_iff.1 hp'
    cases p with
    | done outcome => cases hreply
    | ask op next =>
      cases hreply
      exact h.reply hp r

/-- What the tasks do, the programs do. -/
theorem Does.program_of_step (h : s.Does o ps) (hstep : s.Step a x s') :
    ∃ ps' o', Program.step ps (program a) = some (x, ps') ∧ s'.Does o' ps' := by
  obtain ⟨ps', hps'⟩ : ∃ ps' x', Program.step ps (program a) = some (x', ps') := by
    cases hstep with
    | start hcreate hresume hreturns hshows => exact ⟨_, _, rfl⟩
    | @reply i root r s₂ _ _ hroot hresume hreturns hshows =>
      obtain ⟨p, hp, hsettled⟩ := h.exists_program hroot
      generalize hg : view s.frames o i = g at hsettled
      cases hsettled with
      | asks hheld hf hpoint =>
        exact ⟨_, _, by rw [program, Program.Action.map, Program.step, hp]; rfl⟩
      | @ended f hf hpoint hsome =>
        -- The frame of a task that has ended is not resumed.
        subst hg
        obtain ⟨-, hframe, -⟩ := view_eq_some hf
        rw [leaf_eq hframe fun c next => by simp [hpoint], resume, frame, hframe] at hresume
        obtain ⟨promise, continuation, point⟩ := f
        cases hpoint
        cases hresume
  obtain ⟨x', hprogram⟩ := hps'
  obtain ⟨s'', o'', hstep', hdoes⟩ := h.step_of_program hprogram
  obtain ⟨rfl, rfl⟩ := hstep.unique hstep'
  exact ⟨ps', o'', hprogram, hdoes⟩

/-- In every run, the programs do what the tasks do. -/
theorem Steps.programs {as : List (Program.Action ℕ (Bool × Body ν ε α ρ) ρ)} {xs : List (α ⊕ Outcome ν ε)}
    (hsteps : Steps s as xs s') (h : s.Does o ps) :
    ∃ ps' o', exec Program.step ps (as.map program) = some (xs, ps') ∧ s'.Does o' ps' := by
  induction hsteps generalizing o ps with
  | nil => exact ⟨ps, o, rfl, h⟩
  | cons hstep _ ih =>
    obtain ⟨ps₁, o₁, hprogram, hdoes₁⟩ := h.program_of_step hstep
    obtain ⟨ps', o', hexec, hdoes⟩ := ih hdoes₁
    exact ⟨ps', o', exec_cons_eq_some.2 ⟨_, ps₁, _, hprogram, hexec, rfl⟩, hdoes⟩

/-- In every run, the tasks do what the programs do. -/
theorem Does.steps_of_programs (h : s.Does o ps) {as : List (Program.Action ℕ (Bool × Body ν ε α ρ) ρ)}
    {xs : List (α ⊕ Outcome ν ε)} {ps' : List (Program α ρ (Outcome ν ε))}
    (hexec : exec Program.step ps (as.map program) = some (xs, ps')) : ∃ s' o', Steps s as xs s' ∧ s'.Does o' ps' := by
  induction as generalizing s o ps xs with
  | nil =>
    cases hexec
    exact ⟨s, o, .nil s, h⟩
  | cons a as ih =>
    obtain ⟨x, ps₁, xs', hprogram, hexec', rfl⟩ := exec_cons_eq_some.1 hexec
    obtain ⟨s₁, o₁, hstep, hdoes₁⟩ := h.step_of_program hprogram
    obtain ⟨s', o', hsteps, hdoes⟩ := ih hdoes₁ hexec'
    exact ⟨s', o', .cons hstep hsteps, hdoes⟩

/-- What is seen of all tasks is what is seen of their programs. -/
theorem Does.shows (h : s.Does o ps) : s.tasks.map s.shows = ps.map fun p => some p.shows := by
  refine List.ext_getElem? fun i => ?_
  rw [List.getElem?_map, List.getElem?_map]
  rcases hroot : s.tasks[i]? with _ | root
  · rw [List.getElem?_eq_none_iff, h.length] at hroot
    rw [List.getElem?_eq_none hroot]
    rfl
  · obtain ⟨p, hp, hsettled⟩ := h.exists_program hroot
    rw [hp, Option.map_some, Option.map_some, shows_of_settled hsettled]

end Steps

/-- For all coroutines, however they await each other, catch what is thrown, or ask the event loop: whenever tasks
    are started and their operations complete, in any order, what is shown after each step, by the task that was
    started or got a reply and by all the others, is what programs show in which `co_await` of a task is a call. No
    step is stuck that these can take, and none goes on for ever. -/
theorem steps_iff (as : List (Program.Action ℕ (Bool × Body ν ε α ρ) ρ)) (xs : List (α ⊕ Outcome ν ε)) :
    ((∃ s, Steps {} as xs s) ↔ ∃ ps, exec Program.step [] (as.map program) = some (xs, ps)) ∧
      ∀ s ps, Steps {} as xs s → exec Program.step [] (as.map program) = some (xs, ps) →
        s.tasks.map s.shows = ps.map fun p => some p.shows := by
  refine ⟨⟨fun ⟨s, hsteps⟩ => ?_, fun ⟨ps, hexec⟩ => ?_⟩, fun s ps hsteps hexec => ?_⟩
  · obtain ⟨ps, o, hexec, -⟩ := hsteps.programs does_empty
    exact ⟨ps, hexec⟩
  · obtain ⟨s, o, hsteps, -⟩ := does_empty.steps_of_programs hexec
    exact ⟨s, hsteps⟩
  · obtain ⟨ps', o, hexec', hdoes⟩ := hsteps.programs does_empty
    cases hexec.symm.trans hexec'
    exact hdoes.shows

/-! ## The frames below a task -/

/-- `h` is the frame of the task, or one that is awaited in its frames. -/
inductive Below (s : Coroutines ν ε α ρ) (root : ℕ) : ℕ → Prop
  | refl : Below s root root
  | next {h child : ℕ} {f : Frame ν ε α ρ} {next : Outcome ν ε → Body ν ε α ρ} :
      Below s root h → s.frame h = some f → f.point = .awaiting child next → Below s root child

/-- From `h` down to a frame that does not await another one. -/
def Down (frames : List (Option (Frame ν ε α ρ))) : ℕ → List ℕ → Prop
  | h, [] => ∃ f, frames[h]?.join = some f ∧ ∀ c next, f.point ≠ .awaiting c next
  | h, c :: ds => (∃ f next, frames[h]?.join = some f ∧ f.point = .awaiting c next) ∧ Down frames c ds

section Below

variable {o : ℕ → ℕ} {i root h : ℕ} {v : Bool} {ws : List (Wait ν ε α ρ)} {ds : List ℕ}

omit [Inhabited ν] in
/-- A chain, from its other end. -/
theorem down_of_chained (hc : Chained (view s.frames o i) root h v ws) (hd : Down s.frames h ds) :
    ∃ ds', Down s.frames root ds' ∧ root :: ds' = (ws.map Wait.handle).reverse ++ h :: ds := by
  induction ws generalizing h v ds with
  | nil =>
    rw [hc.1] at hd ⊢
    exact ⟨ds, hd, rfl⟩
  | cons w ws ih =>
    obtain ⟨-, -, ⟨f, hf, hpoint⟩, hc'⟩ := hc
    have hd₁ : Down s.frames w.handle (h :: ds) := ⟨⟨f, w.next, (view_eq_some hf).2.1, hpoint⟩, hd⟩
    obtain ⟨ds', hd', heq⟩ := ih hc' hd₁
    refine ⟨ds', hd', heq.trans ?_⟩
    rw [List.map_cons, List.reverse_cons, List.append_assoc, List.singleton_append]

omit [Inhabited ν] in
theorem Down.below (hd : Down s.frames h ds) (hh : s.Below root h) : ∀ x ∈ ds, s.Below root x := by
  induction ds generalizing h with
  | nil => simp
  | cons c ds ih =>
    obtain ⟨⟨f, next, hf, hpoint⟩, hd⟩ := hd
    have hc : s.Below root c := .next hh hf hpoint
    rw [List.forall_mem_cons]
    exact ⟨hc, ih hd hc⟩

omit [Inhabited ν] in
/-- What is awaited in one of these frames is one of them. -/
theorem Down.mem_of_awaiting (hd : Down s.frames h ds) {x c : ℕ} {f : Frame ν ε α ρ}
    {next : Outcome ν ε → Body ν ε α ρ} (hx : x ∈ h :: ds) (hf : s.frame x = some f)
    (hpoint : f.point = .awaiting c next) : c ∈ ds := by
  induction ds generalizing h with
  | nil =>
    obtain ⟨f', hf', hpoint'⟩ := hd
    rw [List.mem_singleton.1 hx] at hf
    cases hf.symm.trans hf'
    exact absurd hpoint (hpoint' c next)
  | cons d ds ih =>
    obtain ⟨⟨f', next', hf', hpoint'⟩, hd⟩ := hd
    rcases List.mem_cons.1 hx with rfl | hx
    · cases hf.symm.trans hf'
      cases hpoint.symm.trans hpoint'
      exact List.mem_cons_self
    · exact List.mem_cons_of_mem d (ih hd hx)

omit [Inhabited ν] in
theorem Down.below_iff (hd : Down s.frames root ds) (x : ℕ) : s.Below root x ↔ x ∈ root :: ds := by
  constructor
  · intro hx
    induction hx with
    | refl => exact List.mem_cons_self
    | next _ hf hpoint ih => exact List.mem_cons_of_mem root (hd.mem_of_awaiting ih hf hpoint)
  · intro hx
    rcases List.mem_cons.1 hx with rfl | hx
    · exact .refl
    · exact hd.below .refl x hx

omit [Inhabited ν] in
/-- The frames of a task that has not ended are those below it. -/
theorem down_of_held {f : Frame ν ε α ρ} (hheld : Held (view s.frames o i) root h v ws)
    (hf : view s.frames o i h = some f) (hpoint : ∀ c next, f.point ≠ .awaiting c next) :
    ∃ ds, Down s.frames root ds ∧ root :: ds = (ws.map Wait.handle).reverse ++ [h] ∧
      ∀ x, (view s.frames o i x).isSome ↔ s.Below root x := by
  have hd₀ : Down s.frames h [] := ⟨f, (view_eq_some hf).2.1, hpoint⟩
  obtain ⟨ds, hd, heq⟩ := down_of_chained hheld.chained hd₀
  refine ⟨ds, hd, heq, fun x => ?_⟩
  rw [hd.below_iff, heq, hheld.isSome_iff, List.mem_append, List.mem_reverse, List.mem_singleton, List.mem_cons,
    or_comm]

/-- The frames that belong to a task are those below it. -/
theorem below_iff_of_settled {p : Program α ρ (Outcome ν ε)} (hp : Settled (view s.frames o i) root p) (x : ℕ) :
    (view s.frames o i x).isSome ↔ s.Below root x := by
  generalize hg : view s.frames o i = g at hp ⊢
  cases hp with
  | asks hheld hf hpoint =>
    subst hg
    obtain ⟨ds, -, -, hiff⟩ := down_of_held hheld hf fun c next => by simp [hpoint]
    exact hiff x
  | @ended f hf hpoint hsome =>
    subst hg
    have hd : Down s.frames root [] := ⟨f, (view_eq_some hf).2.1, fun c next => by simp [hpoint]⟩
    rw [hsome, hd.below_iff, List.mem_singleton]

end Below

/-- In every state that is reached, each frame is below exactly one of the tasks; below a task that has not ended,
    exactly one frame is not awaiting another one, and that is in an operation; below one that has ended, there is no
    other frame. -/
theorem frames_below {as : List (Program.Action ℕ (Bool × Body ν ε α ρ) ρ)} {xs : List (α ⊕ Outcome ν ε)}
    (h : Steps {} as xs s) :
    (∀ x, (s.frame x).isSome → ∃! i : ℕ, ∃ root, s.tasks[i]? = some root ∧ s.Below root x) ∧
      ∀ (i root : ℕ), s.tasks[i]? = some root →
        (∃ f, s.frame root = some f ∧ f.point = .done ∧ ∀ x, s.Below root x → x = root) ∨
        ∃ x f op next, s.Below root x ∧ s.frame x = some f ∧ f.point = .suspended op next ∧
          ∀ y, s.Below root y → y ≠ x → ∃ g child next', s.frame y = some g ∧ g.point = .awaiting child next' := by
  obtain ⟨ps, o, -, hdoes⟩ := h.programs does_empty
  refine ⟨fun x hx => ?_, fun i root hroot => ?_⟩
  · -- The task is the one that the frame belongs to.
    have hview : (view s.frames o (o x) x).isSome := by
      rw [view, if_pos rfl]
      exact hx
    have hlt : o x < s.tasks.length := by
      by_contra hge
      rw [hdoes.owned (o x) (hdoes.length ▸ Nat.le_of_not_lt hge)] at hview
      cases hview
    obtain ⟨root, hroot⟩ : ∃ root, s.tasks[o x]? = some root := ⟨_, List.getElem?_eq_getElem hlt⟩
    obtain ⟨p, -, hp⟩ := hdoes.exists_program hroot
    refine ⟨o x, ⟨root, hroot, (below_iff_of_settled hp x).1 hview⟩, ?_⟩
    rintro j ⟨root', hroot', hbelow⟩
    obtain ⟨p', -, hp'⟩ := hdoes.exists_program hroot'
    obtain ⟨f, hf⟩ := Option.isSome_iff_exists.1 ((below_iff_of_settled hp' x).2 hbelow)
    exact (view_eq_some hf).1.symm
  · obtain ⟨p, -, hp⟩ := hdoes.exists_program hroot
    have hiff := below_iff_of_settled hp
    generalize hg : view s.frames o i = g at hp
    cases hp with
    | @asks y v ws f op next hheld hf hpoint =>
      subst hg
      refine .inr ⟨y, f, op, next, (hiff y).1 (by rw [hf]; rfl), (view_eq_some hf).2.1, hpoint, fun z hz hne => ?_⟩
      have hmem := (hheld.isSome_iff z).1 ((hiff z).2 hz)
      obtain ⟨w, hw, rfl⟩ := List.mem_map.1 ((List.mem_cons.1 hmem).resolve_left hne)
      obtain ⟨g, child, hg, hpoint'⟩ := hheld.chained.awaiting w hw
      exact ⟨g, child, w.next, (view_eq_some hg).2.1, hpoint'⟩
    | @ended f hf hpoint hsome =>
      subst hg
      exact .inl ⟨f, (view_eq_some hf).2.1, hpoint, fun x hx => (hsome x).1 ((hiff x).2 hx)⟩

section Example

/-- A task of type `void` asks for the operation 7. -/
def asking : Body ℕ Unit ℕ ℕ := .suspend 7 .ret

/-- It is awaited by another one, which gives its result, or 1 if it throws. -/
def caught : Outcome ℕ Unit → Body ℕ Unit ℕ ℕ
  | .ok v => .ret v
  | .error _ => .ret 1

/-- The frames of the two. -/
def waiting : Coroutines ℕ Unit ℕ ℕ where
  frames := [some ⟨.new false, none, .awaiting 1 caught⟩, some ⟨.new true, some 0, .suspended 7 .ret⟩]
  tasks := [0]

theorem steps_waiting : Steps {} [.start (false, .await true asking caught)] [.inl 7] waiting :=
  .cons (.start rfl rfl (.next rfl (.next rfl (.done rfl))) rfl) (.nil waiting)

theorem frames_below_waiting :
    (∀ x, (waiting.frame x).isSome → ∃! i : ℕ, ∃ root, waiting.tasks[i]? = some root ∧ waiting.Below root x) ∧
      ∀ (i root : ℕ), waiting.tasks[i]? = some root →
        (∃ f, waiting.frame root = some f ∧ f.point = .done ∧ ∀ x, waiting.Below root x → x = root) ∨
        ∃ x f op next, waiting.Below root x ∧ waiting.frame x = some f ∧ f.point = .suspended op next ∧
          ∀ y, waiting.Below root y → y ≠ x →
            ∃ g child next', waiting.frame y = some g ∧ g.point = .awaiting child next' :=
  frames_below steps_waiting

end Example

/-! ## Resuming a task that awaits another one -/

section Early

variable {frames frames' : List (Option (Frame ν ε α ρ))} {h : ℕ} {ds : List ℕ}

omit [Inhabited ν] in
theorem Down.congr (hd : Down frames h ds) (heq : ∀ x ∈ h :: ds, frames'[x]?.join = frames[x]?.join) :
    Down frames' h ds := by
  induction ds generalizing h with
  | nil =>
    obtain ⟨f, hf, hpoint⟩ := hd
    exact ⟨f, (heq h List.mem_cons_self).trans hf, hpoint⟩
  | cons c ds ih =>
    obtain ⟨⟨f, next, hf, hpoint⟩, hd⟩ := hd
    rw [List.forall_mem_cons] at heq
    exact ⟨⟨f, next, heq.1.trans hf, hpoint⟩, ih hd heq.2⟩

omit [Inhabited ν] in
/-- With a frame are destroyed all those below it, each of them once. -/
theorem destroyFrom_frames (hd : Down frames h ds) (hnodup : (h :: ds).Nodup) {n : ℕ} (hn : ds.length < n) :
    ∃ frames', destroyFrom n h frames = some frames' ∧ (∀ x ∈ h :: ds, frames'[x]?.join = none) ∧
      ∀ x ∉ h :: ds, frames'[x]?.join = frames[x]?.join := by
  obtain ⟨n, rfl⟩ := Nat.exists_eq_succ_of_ne_zero (Nat.ne_zero_of_lt hn)
  induction ds generalizing h n frames with
  | nil =>
    obtain ⟨f, hf, hpoint⟩ := hd
    obtain ⟨hlt, -⟩ := List.getElem?_eq_some_iff.1 (Option.join_eq_some_iff.1 hf)
    refine ⟨frames.set h none, ?_, fun x hx => ?_, fun x hx => ?_⟩
    · rw [destroyFrom, hf]
      obtain ⟨promise, continuation, point⟩ := f
      cases point with
      | awaiting c next => exact absurd rfl (hpoint c next)
      | _ => rfl
    · rw [List.mem_singleton.1 hx, List.getElem?_set_self hlt]
      rfl
    · rw [List.getElem?_set_ne (Ne.symm (mt List.mem_singleton.2 hx))]
  | cons c ds ih =>
    obtain ⟨⟨f, next, hf, hpoint⟩, hd⟩ := hd
    obtain ⟨hlt, -⟩ := List.getElem?_eq_some_iff.1 (Option.join_eq_some_iff.1 hf)
    obtain ⟨hmem, hnodup⟩ := List.nodup_cons.1 hnodup
    obtain ⟨n, rfl⟩ := Nat.exists_eq_succ_of_ne_zero (Nat.ne_zero_of_lt (Nat.lt_of_succ_lt_succ hn))
    have hset : destroyFrom (n + 2) h frames = destroyFrom (n + 1) c (frames.set h none) := by
      rw [destroyFrom, hf]
      obtain ⟨promise, continuation, point⟩ := f
      cases hpoint
      rfl
    have hne : ∀ y ∈ c :: ds, h ≠ y := by
      rintro y hy rfl
      exact hmem hy
    have hd' : Down (frames.set h none) c ds :=
      hd.congr fun y hy => by rw [List.getElem?_set_ne (hne y hy)]
    obtain ⟨frames', hframes', hin, hout⟩ := ih hd' hnodup n (Nat.lt_of_succ_lt_succ hn)
    refine ⟨frames', hset.trans hframes', fun x hx => ?_, fun x hx => ?_⟩
    · rcases List.mem_cons.1 hx with rfl | hx
      · rw [hout x hmem, List.getElem?_set_self hlt]
        rfl
      · exact hin x hx
    · obtain ⟨hxh, hx⟩ := not_or.1 (mt List.mem_cons.2 hx)
      rw [hout x hx, List.getElem?_set_ne (Ne.symm hxh)]

/-- A task that awaits another one goes on with what is in the promise of that. -/
theorem resume_awaiting {c : ℕ} {f g : Frame ν ε α ρ} {next : Outcome ν ε → Body ν ε α ρ}
    (hd : Down s.frames h (c :: ds)) (hnodup : (h :: c :: ds).Nodup) (hlen : ds.length < s.frames.length)
    (hf : s.frames[h]?.join = some f) (hpoint : f.point = .awaiting c next) (hg : s.frames[c]?.join = some g) :
    ∃ s₁, s.resume h none = some s₁ ∧ s₁.running = some (h, next g.promise.result) ∧ s₁.tasks = s.tasks ∧
      (∀ x ∈ c :: ds, s₁.frames[x]?.join = none) ∧
      s₁.frames[h]?.join = some { f with point := .running } ∧
      ∀ x ∉ h :: c :: ds, s₁.frames[x]?.join = s.frames[x]?.join := by
  obtain ⟨-, hd⟩ := hd
  obtain ⟨hmem, hnodup⟩ := List.nodup_cons.1 hnodup
  obtain ⟨frames', hdestroyFrom, hin, hout⟩ := destroyFrom_frames hd hnodup hlen
  have hdestroy : s.destroy c = some { s with frames := frames' } := by
    rw [destroy, hdestroyFrom]
    rfl
  have hf₁ : frames'[h]?.join = some f := (hout h hmem).trans hf
  obtain ⟨hlt, -⟩ := List.getElem?_eq_some_iff.1 (Option.join_eq_some_iff.1 hf₁)
  let s₁ : Coroutines ν ε α ρ :=
    ⟨frames'.set h (some { f with point := .running }), some (h, next g.promise.result), s.tasks⟩
  refine ⟨s₁, ?_, rfl, rfl, fun x hx => ?_, ?_, fun x hx => ?_⟩
  · rw [resume, frame, hf]
    obtain ⟨promise, continuation, point⟩ := f
    cases hpoint
    change s.awaitResume h c next = _
    rw [awaitResume, frame, hg]
    change (s.destroy c).bind (fun s => s.goOn h (next g.promise.result)) = _
    rw [hdestroy, Option.bind_some]
    exact goOn_eq (s := { s with frames := frames' }) hf₁ _
  · have hne : h ≠ x := by
      rintro rfl
      exact hmem hx
    rw [List.getElem?_set_ne hne]
    exact hin x hx
  · rw [List.getElem?_set_self hlt]
    rfl
  · obtain ⟨hxh, hx⟩ := not_or.1 (mt List.mem_cons.2 hx)
    rw [List.getElem?_set_ne (Ne.symm hxh)]
    exact hout x hx

omit [Inhabited ν] in
/-- The frames below it are those that are destroyed: it is left alone. -/
theorem view_alone {s s₁ : Coroutines ν ε α ρ} {o : ℕ → ℕ} {i root : ℕ} {f : Frame ν ε α ρ} {ds : List ℕ}
    (hview : ∀ x, (view s.frames o i x).isSome ↔ x ∈ root :: ds) (hin : ∀ x ∈ ds, s₁.frames[x]?.join = none)
    (hroot : s₁.frames[root]?.join = some f) (hout : ∀ x ∉ root :: ds, s₁.frames[x]?.join = s.frames[x]?.join) :
    view s₁.frames o i = Function.update (fun _ => none) root (some f) ∧
      ∀ j ≠ i, view s₁.frames o j = view s.frames o j := by
  have howner : ∀ x ∈ root :: ds, o x = i := by
    intro x hx
    obtain ⟨f', hf'⟩ := Option.isSome_iff_exists.1 ((hview x).2 hx)
    exact (view_eq_some hf').1
  constructor
  · funext x
    by_cases hx : x = root
    · subst hx
      rw [Function.update_self, view, if_pos (howner x List.mem_cons_self), hroot]
    · rw [Function.update_of_ne hx]
      by_cases hxd : x ∈ ds
      · rw [view, hin x hxd, ite_self]
      · have hnot : x ∉ root :: ds := by
          rw [List.mem_cons, not_or]
          exact ⟨hx, hxd⟩
        have hnone : view s.frames o i x = none := Option.not_isSome_iff_eq_none.1 (mt (hview x).1 hnot)
        rw [view, hout x hnot]
        exact hnone
  · intro j hj
    funext x
    by_cases hx : x ∈ root :: ds
    · rw [view, view, howner x hx, if_neg hj.symm, if_neg hj.symm]
    · rw [view, view, hout x hx]

/-- The frames below a task that awaits another one, and who is to get their results. -/
theorem below_of_awaiting {s : Coroutines ν ε α ρ} {o : ℕ → ℕ} {i root c : ℕ} {p : Program α ρ (Outcome ν ε)}
    {f : Frame ν ε α ρ} {next : Outcome ν ε → Body ν ε α ρ} (hp : Settled (view s.frames o i) root p)
    (hf : s.frame root = some f) (hpoint : f.point = .awaiting c next) :
    ∃ ds, Down s.frames root (c :: ds) ∧ (root :: c :: ds).Nodup ∧ ds.length < s.frames.length ∧
      (∀ x, (view s.frames o i x).isSome ↔ x ∈ root :: c :: ds) ∧ (∃ v, f.promise = .new v) ∧
      f.continuation = none ∧ ∃ g v, s.frame c = some g ∧ g.promise = .new v := by
  generalize hg : view s.frames o i = g at hp
  cases hp with
  | @ended f' hf' hpoint' =>
    subst hg
    cases hf.symm.trans (view_eq_some hf').2.1
    cases hpoint.symm.trans hpoint'
  | @asks h v ws f' op next' hheld hf' hpoint' =>
    subst hg
    obtain ⟨ds, hd, heq, -⟩ := down_of_held hheld hf' fun c next => by simp [hpoint']
    rw [← List.reverse_cons] at heq
    have hmem : ∀ x, x ∈ root :: ds ↔ x ∈ h :: ws.map Wait.handle := by
      intro x
      rw [heq, List.mem_reverse]
    have hnodup : (root :: ds).Nodup := by
      rw [heq, List.nodup_reverse]
      exact hheld.chained.nodup
    obtain ⟨f₁, v₁, hf₁, hpromise⟩ := hheld.chained.promise root ((hmem root).1 List.mem_cons_self)
    obtain ⟨f₂, hf₂, hcontinuation⟩ := hheld.chained.continuation_root
    cases hf₁.symm.trans hf₂
    cases hf.symm.trans (view_eq_some hf₁).2.1
    cases ds with
    | nil =>
      obtain ⟨f₃, hf₃, hpoint₃⟩ := hd
      cases hf.symm.trans hf₃
      exact absurd hpoint (hpoint₃ c next)
    | cons d ds =>
      obtain ⟨f₃, next₃, hf₃, hpoint₃⟩ := hd.1
      cases hf.symm.trans hf₃
      cases hpoint.symm.trans hpoint₃
      obtain ⟨g, vc, hg, hpromisec⟩ :=
        hheld.chained.promise c ((hmem c).1 (List.mem_cons_of_mem root List.mem_cons_self))
      have hlen : ds.length < s.frames.length := by
        have hlength := congrArg List.length heq
        have hle := hheld.chained.length_le
        have hlt := (view_eq_some hf').2.2
        simp only [List.length_reverse, List.length_cons, List.length_map] at hlength
        omega
      exact ⟨ds, hd, hnodup, hlen, fun x => (hheld.isSome_iff x).trans (hmem x).symm, ⟨v₁, hpromise⟩, hcontinuation,
        g, vc, (view_eq_some hg).2.1, hpromisec⟩

end Early

/-- In every state that is reached, when a task is resumed from the outside that awaits another one, it goes on at
    once: after a task of type `void` as if that had succeeded, else with the error that the value was never set.
    All frames below it are destroyed before that, so that the handle that is in an operation is not to be resumed
    any more, though nothing has told the event loop. -/
theorem resume_early {as : List (Program.Action ℕ (Bool × Body ν ε α ρ) ρ)} {xs : List (α ⊕ Outcome ν ε)}
    (hsteps : Steps {} as xs s) {i root c : ℕ} {f : Frame ν ε α ρ} {next : Outcome ν ε → Body ν ε α ρ}
    (hroot : s.tasks[i]? = some root) (hf : s.frame root = some f) (hpoint : f.point = .awaiting c next) :
    ∃ v g v' s₁ s', f.promise = .new v ∧ s.frame c = some g ∧ g.promise = .new v' ∧
      s.resume root none = some s₁ ∧
      (∀ x, s.Below root x → x ≠ root → s₁.frame x = none ∧ ∀ reply, s₁.resume x reply = none) ∧
      Loop.Returns turn s₁ s' ∧
      s'.shows root = some ((next (if v' then .ok default else .error .neverSet)).program v).shows ∧
      ∀ (j root' : ℕ), j ≠ i → s.tasks[j]? = some root' → s'.shows root' = s.shows root' := by
  obtain ⟨ps, o, -, hdoes⟩ := hsteps.programs does_empty
  obtain ⟨p, hp, hsettled⟩ := hdoes.exists_program hroot
  obtain ⟨ds, hd, hnodup, hlen, hview, ⟨v, hpromise⟩, hcontinuation, g, v', hg, hpromise'⟩ :=
    below_of_awaiting hsettled hf hpoint
  obtain ⟨s₁, hresume, hrun, htasks, hin, hroot₁, hout⟩ := resume_awaiting hd hnodup hlen hf hpoint hg
  obtain ⟨hself, hothers⟩ := view_alone hview hin hroot₁ hout
  have hheld : Held (view s₁.frames o i) root root v [] := by
    rw [hself]
    exact held_alone hpromise hcontinuation
  have hresult : g.promise.result = if v' then .ok default else .error .neverSet := by
    rw [hpromise']
    cases v' <;> rfl
  have hgoes := goes hrun hheld
  rw [hresult] at hgoes
  obtain ⟨s', o', hreturns, htasks', hshows, hdoes'⟩ := hdoes.of_goes hgoes hothers
    (List.getElem?_set_self (List.getElem?_eq_some_iff.1 hp).1) (fun j hj => List.getElem?_set_ne hj.symm)
    (htasks ▸ hroot) (fun j _ => by rw [htasks]) (by rw [htasks, List.length_set, hdoes.length])
    (by rw [List.length_set])
  refine ⟨v, g, v', s₁, s', hpromise, hg, hpromise', hresume, fun x hx hne => ?_, hreturns, hshows,
    fun j root' hj hroot' => ?_⟩
  · have hxd : x ∈ c :: ds := (List.mem_cons.1 ((hd.below_iff x).1 hx)).resolve_left hne
    have hnone : s₁.frame x = none := hin x hxd
    exact ⟨hnone, fun reply => by rw [resume, hnone]; rfl⟩
  · obtain ⟨p', hp', hsettled'⟩ := hdoes.exists_program hroot'
    have htask : s'.tasks[j]? = some root' := by rw [htasks', htasks, hroot']
    have hstays := hdoes'.settled j root' p' htask ((List.getElem?_set_ne hj.symm).trans hp')
    rw [shows_of_settled hstays, shows_of_settled hsettled']

/-- The other task has asked for the operation 7, and is gone when 0 is the result of it. -/
theorem resume_early_waiting :
    ∃ v g v' s₁ s', (Promise.new false : Promise ℕ Unit) = .new v ∧ waiting.frame 1 = some g ∧ g.promise = .new v' ∧
      waiting.resume 0 none = some s₁ ∧
      (∀ x, waiting.Below 0 x → x ≠ 0 → s₁.frame x = none ∧ ∀ reply, s₁.resume x reply = none) ∧
      Loop.Returns turn s₁ s' ∧
      s'.shows 0 = some ((caught (if v' then .ok default else .error .neverSet)).program v).shows ∧
      ∀ (j root' : ℕ), j ≠ 0 → waiting.tasks[j]? = some root' → s'.shows root' = waiting.shows root' :=
  resume_early steps_waiting (i := 0) (f := ⟨.new false, none, .awaiting 1 caught⟩) rfl rfl rfl

end Coroutines

end Cppnet.Coro.Tasks
