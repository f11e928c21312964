import Cppnet.Coro.Drain

/-!
# Handles that `resume` accepts

`resume` of a handle looks at `running` first, and pushes later: the workers may have exited in between. And
`resume` of a range, which does not look at all, counts its pushes when they are in the queue: the workers may
have counted them down before that, or have taken the counter for that of an empty queue.

If none of these happens in a run (`Meets`), no handle that was accepted is left when all workers have exited,
and the counter does not drop below zero (`resume_kept`).
-/

namespace Cppnet.Coro

open Lib

variable {η : Type*}

namespace Phase

/-- In front of counting down a job. -/
def Done : Phase η → Bool
  | .done _ => true
  | _ => false

/-- At the condition of the second loop. -/
def Leaving : Phase η → Bool
  | .test .second => true
  | _ => false

end Phase

namespace Call

/-- The pushes that are not counted yet. -/
def ids : Call η → List ℕ
  | .add ids => ids
  | _ => []

/-- Counted, and not pushed. -/
def Pushing : Call η → Bool
  | .push _ _ => true
  | _ => false

end Call

namespace ThreadPool

variable (s : ThreadPool η)

/-- The number of handles in the queue, executed, or about to be pushed. -/
def held : ℕ := s.jobs.length + s.workers.countP Phase.Busy + s.calls.countP (·.2.Pushing)

/-- The number of handles that were pushed and not counted yet. -/
def owed : ℕ := (s.calls.map (·.2.ids.length)).sum

/-- A `resume` pushes while a worker is there. A worker counts down a job while one of the handles that are held is
    counted, and the last one leaves by the counter when the queue has no handle of a `resume`. -/
def Meets : Action η → Prop
  | .goOn i => ∀ x ∈ s.calls[i]?, x.2.resumes → x.2.pushed ≠ [] → ∃ p ∈ s.workers, p.Exited = false
  | .work w => ∀ p ∈ s.workers[w]?, (p.Done → s.owed < s.held) ∧
      (p.Leaving → s.numJobs = 0 → (∃ job ∈ s.jobs, job.resumed) → ∃ p' ∈ s.workers.eraseIdx w, p'.Exited = false)
  | _ => True

instance : (a : Action η) → Decidable (s.Meets a)
  | .shutdown => .isTrue trivial
  | .call _ _ => .isTrue trivial
  | .goOn i => inferInstanceAs (Decidable (∀ x ∈ s.calls[i]?, _))
  | .work w => inferInstanceAs (Decidable (∀ p ∈ s.workers[w]?, _))

/-- The push is one that a `resume` has reported, or is about to. -/
def Reported (id : ℕ) : Prop := id ∈ s.accepted ∨ ∃ x ∈ s.calls, id ∈ x.2.ids

/-- No handle of a `resume` is left behind. -/
structure Kept (s : ThreadPool η) : Prop extends Inv s where
  nonneg : 0 ≤ s.numJobs
  kept : (∀ p ∈ s.workers, p.Exited) → ∀ job ∈ s.jobs, job.resumed = false
  reported : ∀ job ∈ s.jobs, s.Reported job.id → job.resumed
  lt_of_reported : ∀ id, s.Reported id → id < s.next

theorem kept_init (concurrency : ℕ) : Kept (init concurrency : ThreadPool η) where
  toInv := inv_init concurrency
  nonneg := le_refl _
  kept := by simp [init]
  reported := by simp [init]
  lt_of_reported := by simp [init, Reported]

section Steps

variable {s} {pusher : Option ℕ} {c : Call η} {i w : ℕ} {phase : Phase η}

/-- The counter counts what is held, but for what is owed. -/
theorem Inv.count_held (h : Inv s) : s.numJobs = s.held - s.owed := by
  have hsum : ∀ calls : List (Option ℕ × Call η), (calls.map (·.2.weight)).sum =
      calls.countP (·.2.Pushing) - ((calls.map (·.2.ids.length)).sum : ℕ) := by
    intro calls
    induction calls with
    | nil => rfl
    | cons x calls ih =>
      obtain ⟨pusher, c⟩ := x
      rw [List.map_cons, List.sum_cons, List.countP_cons, List.map_cons, List.sum_cons, ih]
      cases c <;> simp [Call.weight, Call.Pushing, Call.ids] <;> omega
  have hcount := h.count
  rw [hsum] at hcount
  rw [held, owed]
  omega

/-! ### Calls -/

theorem numJobs_le_callStep (s : ThreadPool η) (pusher : Option ℕ) (c : Call η) :
    s.numJobs ≤ (s.callStep pusher c).1.numJobs := by
  rcases c with (_ | handle) | (_ | handle) | handles | ⟨handle, resumed⟩ | ids <;>
    simp [callStep, emplaceBack]

/-- A step of a call reports no pushes but those of its own. -/
theorem reported_callStep (hc : s.calls[i]? = some (pusher, c)) {id : ℕ}
    (h : ((s.callStep pusher c).1.setCall i pusher (s.callStep pusher c).2).Reported id) :
    s.Reported id ∨ c.resumes ∧ id ∈ List.range' s.next c.pushed.length := by
  have hcalls := (callStep_frame s pusher c).2.2.1
  rcases h with haccepted | ⟨x, hx, hid⟩
  · change id ∈ (s.callStep pusher c).1.accepted at haccepted
    rcases c with (_ | handle) | (_ | handle) | handles | ⟨handle, _ | _⟩ | ids
    · exact .inl (.inl haccepted)
    · exact .inl (.inl haccepted)
    · exact .inl (.inl haccepted)
    · exact .inl (.inl haccepted)
    · exact .inl (.inl haccepted)
    · exact .inl (.inl haccepted)
    · rcases List.mem_cons.1 haccepted with rfl | haccepted
      · exact .inr ⟨rfl, List.mem_singleton.2 rfl⟩
      · exact .inl (.inl haccepted)
    · rcases List.mem_append.1 haccepted with haccepted | haccepted
      · exact .inl (.inr ⟨_, List.mem_of_getElem? hc, haccepted⟩)
      · exact .inl (.inl haccepted)
  · rcases mem_setCall hx with hx | ⟨c', hc', rfl⟩
    · exact .inl (.inr ⟨x, hcalls ▸ hx, hid⟩)
    · rcases c with (_ | handle) | (_ | handle) | handles | ⟨handle, resumed⟩ | ids
      · cases hc'
      · cases hc'
        cases hid
      · cases hc'
      · obtain ⟨-, hc'⟩ := Option.ite_none_right_eq_some.1 hc'
        cases hc'
        cases hid
      · cases hc'
        exact .inr ⟨rfl, hid⟩
      · cases hc'
      · cases hc'

theorem Kept.callStep (h : Kept s) (hc : s.calls[i]? = some (pusher, c)) (hmeets : s.Meets (.goOn i)) :
    Kept ((s.callStep pusher c).1.setCall i pusher (s.callStep pusher c).2) := by
  have hinv := h.toInv.callStep hc
  have hreported : ∀ {id}, ((s.callStep pusher c).1.setCall i pusher (s.callStep pusher c).2).Reported id →
      s.Reported id ∨ c.resumes ∧ id ∈ List.range' s.next c.pushed.length := reported_callStep hc
  have hle := numJobs_le_callStep s pusher c
  obtain ⟨-, hworkers, -, -⟩ := callStep_frame s pusher c
  obtain ⟨hjobs, hnext, -⟩ := callStep_jobs s pusher c
  -- The numbers of the pushes of this step are new.
  have hnew : ∀ job ∈ s.newJobs pusher c.resumes c.pushed, job.id ∈ List.range' s.next c.pushed.length := by
    intro job hjob
    rw [← map_id_newJobs s pusher c.resumes]
    exact List.mem_map_of_mem hjob
  refine ⟨hinv, h.nonneg.trans hle, ?_, ?_, ?_⟩
  · intro hall job hjob
    change ∀ p ∈ (s.callStep pusher c).1.workers, p.Exited at hall
    change job ∈ (s.callStep pusher c).1.jobs at hjob
    rw [hworkers] at hall
    rw [hjobs, List.mem_append] at hjob
    rcases hjob with hjob | hjob
    · exact h.kept hall job hjob
    · rw [(mem_newJobs hjob).2.2]
      by_contra hresumes
      have hne : c.pushed ≠ [] := by
        intro hnil
        rw [hnil] at hjob
        cases hjob
      obtain ⟨p, hp, hexited⟩ := hmeets _ hc (eq_true_of_ne_false hresumes) hne
      rw [hall p hp] at hexited
      cases hexited
  · intro job hjob hid
    change job ∈ (s.callStep pusher c).1.jobs at hjob
    rw [hjobs, List.mem_append] at hjob
    rcases hjob with hjob | hjob
    · rcases hreported hid with hid | ⟨-, hid⟩
      · exact h.reported job hjob hid
      · have hlt := h.lt_next job.id (List.mem_append_left _ (List.mem_map_of_mem hjob))
        exact absurd (List.mem_range'_1.1 hid).1 (by omega)
    · rcases hreported hid with hid | ⟨hresumes, -⟩
      · have hlt := h.lt_of_reported _ hid
        exact absurd (List.mem_range'_1.1 (hnew job hjob)).1 (by omega)
      · rwa [(mem_newJobs hjob).2.2]
  · intro id hid
    change id < (s.callStep pusher c).1.next
    rw [hnext]
    rcases hreported hid with hid | ⟨-, hid⟩
    · exact Nat.lt_add_right _ (h.lt_of_reported id hid)
    · exact (List.mem_range'_1.1 hid).2

/-! ### Workers -/

theorem Kept.workerStep (h : Kept s) (hw : s.workers[w]? = some phase) (hmay : s.MayWork w phase)
    (hmeets : s.Meets (.work w)) :
    Kept { (s.workerStep phase).1 with workers := s.workers.set w (s.workerStep phase).2 } := by
  have hinv := h.toInv.workerStep hw hmay
  have hsub := workerStep_jobs_subset (s := s) hmay.1
  obtain ⟨hdone, hleaving⟩ := hmeets phase hw
  obtain ⟨-, hcalls, hnext, haccepted, -⟩ := workerStep_frame (s := s) hmay.1
  obtain ⟨hlt, -⟩ := List.getElem?_eq_some_iff.1 hw
  have hreported : ∀ id, Reported { (s.workerStep phase).1 with
      workers := s.workers.set w (s.workerStep phase).2 } id → s.Reported id := by
    intro id hid
    rw [Reported] at hid
    dsimp only at hid
    rwa [hcalls, haccepted] at hid
  refine ⟨hinv, ?_, ?_, fun job hjob hid => h.reported job (hsub job hjob) (hreported _ hid), fun id hid => ?_⟩
  · dsimp only
    rcases workerStep_cases (s := s) hmay.1 with ⟨phase', heq, -⟩ | ⟨l, job, jobs, rfl, -, heq⟩ | ⟨l, rfl, heq⟩
    · rw [heq]
      exact h.nonneg
    · rw [heq]
      exact h.nonneg
    · have hcount := h.count_held
      have hlt := hdone rfl
      rw [heq]
      dsimp only
      omega
  · intro hall job hjob
    dsimp only at hall hjob
    have hexited : (s.workerStep phase).2.Exited := hall _ (List.mem_set hlt _)
    rcases workerStep_cases (s := s) hmay.1 with ⟨phase', heq, -, -, hempty⟩ | ⟨l, job, jobs, rfl, -, heq⟩ |
      ⟨l, rfl, heq⟩
    · rw [heq] at hexited
      rcases hempty hexited with hnil | ⟨rfl, hnum⟩
      · have hmem := hsub job hjob
        rw [hnil] at hmem
        cases hmem
      · -- The last worker would not have left.
        by_contra hresumed
        obtain ⟨p, hp, hp'⟩ := hleaving rfl hnum ⟨job, hsub job hjob, eq_true_of_ne_false hresumed⟩
        obtain ⟨w', hww', hget⟩ := List.mem_eraseIdx_iff_getElem?.1 hp
        have hmem : p ∈ s.workers.set w (s.workerStep (.test .second)).2 := by
          refine List.mem_of_getElem? (i := w') ?_
          rwa [List.getElem?_set_ne (Ne.symm hww')]
        rw [hall p hmem] at hp'
        cases hp'
    · rw [heq] at hexited
      cases hexited
    · rw [heq] at hexited
      cases hexited
  · dsimp only
    rw [hnext]
    exact h.lt_of_reported id (hreported id hid)

end Steps

theorem Kept.step {s s' : ThreadPool η} {a : Action η} {o : Unit} (h : Kept s) (hmeets : s.Meets a)
    (hstep : s.step a = some (o, s')) : Kept s' := by
  have hinv := h.toInv.step hstep
  rcases step_cases hstep with ⟨rfl, rfl⟩ | ⟨pusher, c, rfl, hstarts, -, rfl⟩ |
    ⟨i, pusher, c, rfl, hcall, rfl⟩ | ⟨w, phase, rfl, hw, hmay, rfl⟩
  · exact ⟨hinv, h.nonneg, h.kept, h.reported, h.lt_of_reported⟩
  · have hids : c.ids = [] := by
      cases c with
      | add => cases hstarts
      | _ => rfl
    have hreported : ∀ id, Reported { s with calls := s.calls ++ [(pusher, c)] } id → s.Reported id := by
      rintro id (hid | ⟨x, hx, hid⟩)
      · exact .inl hid
      · rcases List.mem_append.1 hx with hx | hx
        · exact .inr ⟨x, hx, hid⟩
        · rw [List.mem_singleton.1 hx, hids] at hid
          cases hid
    exact ⟨hinv, h.nonneg, h.kept, fun job hjob hid => h.reported job hjob (hreported _ hid),
      fun id hid => h.lt_of_reported id (hreported id hid)⟩
  · exact h.callStep hcall hmeets
  · exact h.workerStep hw hmay hmeets

/-- In every run whose steps meet the condition, the counter is not below zero, and when all workers have exited, no
    handle is in the queue that a `resume` has reported as accepted. -/
theorem resume_kept (concurrency : ℕ) (actions : List (Action η)) (outs : List Unit) (s : ThreadPool η)
    (h : exec step (init concurrency) actions = some (outs, s))
    (hmeets : Along step Meets (init concurrency) actions) :
    0 ≤ s.numJobs ∧ ((∀ p ∈ s.workers, p.Exited) → ∀ job ∈ s.jobs, job.id ∉ s.accepted) := by
  have hkept : Kept s := hmeets.invariant Kept (fun _ _ _ _ h hC hstep => h.step hC hstep)
    (kept_init concurrency) h
  refine ⟨hkept.nonneg, fun hall job hjob hid => ?_⟩
  have hresumed := hkept.reported job hjob (.inl hid)
  rw [hkept.kept hall job hjob] at hresumed
  cases hresumed

/-- A handle and a range, while the worker waits; all of them are resumed when the pool is shut down. -/
theorem resume_kept_one :
    let actions : List (Action ℕ) :=
      [.call none (.resume (some 7)), .goOn 0, .goOn 0, .goOn 0, .call none (.resumeRange [none, some 8]), .goOn 0,
        .goOn 0, .shutdown, .work 0, .work 0, .work 0, .work 0, .work 0, .work 0, .work 0, .work 0, .work 0, .work 0]
    ∃ outs s, exec step (init 1) actions = some (outs, s) ∧ s.workers = [.exited] ∧ s.accepted = [1, 0] ∧
      0 ≤ s.numJobs ∧ ((∀ p ∈ s.workers, p.Exited) → ∀ job ∈ s.jobs, job.id ∉ s.accepted) := by
  intro actions
  exact ⟨_, _, rfl, rfl, rfl, resume_kept 1 actions _ _ rfl (by decide)⟩

/-- The pool is shut down between the test and the push of a `resume`; a worker has executed and counted down the
    handle of a range before it is counted; and the worker takes the queue for empty as it is not counted. -/
theorem resume_lost :
    (∃ outs s, exec step (init 1 : ThreadPool ℕ)
        [.call none (.resume (some 7)), .goOn 0, .shutdown, .work 0, .work 0, .goOn 0, .goOn 0] = some (outs, s) ∧
      s.workers = [.exited] ∧ s.accepted = [0] ∧ s.jobs.map Job.id = [0]) ∧
    (∃ outs s, exec step (init 1 : ThreadPool ℕ)
        [.call none (.resumeRange [some 7]), .goOn 0, .work 0, .work 0, .work 0, .work 0] = some (outs, s) ∧
      s.numJobs = -1) ∧
    ∃ outs s, exec step (init 1 : ThreadPool ℕ)
        [.shutdown, .work 0, .call none (.resumeRange [some 7]), .goOn 0, .work 0, .goOn 0] = some (outs, s) ∧
      s.workers = [.exited] ∧ s.accepted = [0] ∧ s.jobs.map Job.id = [0] :=
  ⟨⟨_, _, rfl, rfl, rfl, rfl⟩, ⟨_, _, rfl, rfl⟩, ⟨_, _, rfl, rfl, rfl, rfl⟩⟩

end ThreadPool

end Cppnet.Coro
