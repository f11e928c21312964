import Cppnet.Coro.ThreadPool
import Mathlib.Algebra.Order.BigOperators.Group.List

/-!
# What is left when the workers have exited

With single handles only, the counter is no less than what is queued and executed. So a worker exits when the
queue is empty, be it that the counter says so or that it looks there. What was pushed before a worker exits is
not there any more when it has (`queue_drained`): this is what was pushed while the pool was running, as no worker
has exited then, and what the job of a worker pushes, as that worker has not.
-/

namespace Cppnet.Coro

open Lib

variable {η : Type*}

/-- Not the call for a range, nor what is left of one. -/
def Call.Single : Call η → Bool
  | .resumeRange _ => false
  | .add _ => false
  | _ => true

namespace Phase

variable {p : Phase η}

theorem late_of_exited (h : p.Exited) : p.Late := by
  cases p with
  | exited => rfl
  | _ => cases h

theorem not_exited_of_running (h : p.Running) : p.Exited = false := by
  cases p with
  | run => rfl
  | _ => cases h

end Phase

namespace ThreadPool

/-- Not a call for a range. -/
def Action.Single : Action η → Bool
  | .call _ c => c.Single
  | _ => true

/-- No worker that should still look at the queue has exited. -/
structure Drains (s : ThreadPool η) : Prop extends Inv s where
  nonempty : s.workers ≠ []
  single : ∀ c ∈ s.calls, c.2.Single
  early : ∀ job ∈ s.jobs, job.early → ∀ p ∈ s.workers, p.Exited = false
  pusher : ∀ job ∈ s.jobs, ∀ w, job.pusher = some w → ∃ p ∈ s.workers[w]?, p.Exited = false

theorem drains_init (concurrency : ℕ) : Drains (init concurrency : ThreadPool η) where
  toInv := inv_init concurrency
  nonempty := by
    rw [init, ne_eq, List.replicate_eq_nil_iff]
    split_ifs with h
    · decide
    · exact h
  single := by simp [init]
  early := by simp [init]
  pusher := by simp [init]

section Steps

variable {s : ThreadPool η} {pusher : Option ℕ} {c : Call η} {i w : ℕ} {phase : Phase η}

/-- The counter is no less than what is queued and executed. -/
theorem Drains.le_numJobs (h : Drains s) : s.jobs.length + s.workers.countP Phase.Busy ≤ s.numJobs := by
  have hnonneg : 0 ≤ (s.calls.map (·.2.weight)).sum := by
    refine List.sum_nonneg fun x hx => ?_
    obtain ⟨c, hc, rfl⟩ := List.mem_map.1 hx
    have hsingle := h.single c hc
    obtain ⟨pusher, c⟩ := c
    cases c with
    | push => exact Int.one_nonneg
    | add => cases hsingle
    | _ => exact le_refl _
  have hcount := h.count
  omega

/-- While the pool is running, no worker has exited. -/
theorem Inv.not_exited (h : Inv s) (hrunning : s.running = true) : ∀ p ∈ s.workers, p.Exited = false := by
  intro p hp
  by_contra hexited
  have hlate := h.late p hp (Phase.late_of_exited (eq_true_of_ne_false hexited))
  rw [hrunning] at hlate
  cases hlate

theorem Drains.callStep (h : Drains s) (hc : s.calls[i]? = some (pusher, c)) :
    Drains ((s.callStep pusher c).1.setCall i pusher (s.callStep pusher c).2) := by
  have hinv := h.toInv.callStep hc
  have hmem := List.mem_of_getElem? hc
  have hsingle := h.single _ hmem
  have hrest : ∀ c' ∈ (s.callStep pusher c).2, c'.Single := by
    intro c' hc'
    rcases c with (_ | handle) | (_ | handle) | handles | ⟨handle, resumed⟩ | ids
    · cases hc'
    · cases hc'
      rfl
    · cases hc'
    · rcases hrunning : s.running
      · simp [ThreadPool.callStep, hrunning] at hc'
      · simp only [ThreadPool.callStep, hrunning, if_true, Option.mem_some] at hc'
        rw [← hc']
        rfl
    · cases hsingle
    · cases hc'
    · cases hc'
  obtain ⟨-, hworkers, hcalls, -⟩ := callStep_frame s pusher c
  obtain ⟨hjobs, -, -⟩ := callStep_jobs s pusher c
  refine ⟨hinv, ?_, ?_, ?_, ?_⟩
  · change (s.callStep pusher c).1.workers ≠ []
    rw [hworkers]
    exact h.nonempty
  · intro x hx
    rcases mem_setCall hx with hx | ⟨c', hc', rfl⟩
    · exact h.single x (hcalls ▸ hx)
    · exact hrest c' hc'
  · intro job hjob hearly p hp
    change job ∈ (s.callStep pusher c).1.jobs at hjob
    change p ∈ (s.callStep pusher c).1.workers at hp
    rw [hworkers] at hp
    rw [hjobs, List.mem_append] at hjob
    rcases hjob with hjob | hjob
    · exact h.early job hjob hearly p hp
    · exact h.not_exited ((mem_newJobs hjob).1.symm.trans hearly) p hp
  · intro job hjob w hw
    change job ∈ (s.callStep pusher c).1.jobs at hjob
    change ∃ p ∈ (s.callStep pusher c).1.workers[w]?, p.Exited = false
    rw [hworkers]
    rw [hjobs, List.mem_append] at hjob
    rcases hjob with hjob | hjob
    · exact h.pusher job hjob w hw
    · -- The job that makes the call is being executed.
      have hany := h.callers _ hmem w ((mem_newJobs hjob).2.1.symm.trans hw)
      obtain ⟨p, hp, hrunning⟩ := (Option.any_eq_true ..).1 hany
      exact ⟨p, hp, Phase.not_exited_of_running hrunning⟩

/-- A worker that exits leaves an empty queue. -/
theorem Drains.jobs_eq_nil (h : Drains s) (hphase : phase.Exited = false)
    (hexited : (s.workerStep phase).2.Exited) : (s.workerStep phase).1.jobs = [] := by
  rcases workerStep_cases (s := s) hphase with ⟨phase', heq, -, -, hempty⟩ | ⟨l, job, jobs, rfl, -, heq⟩ |
    ⟨l, rfl, heq⟩
  · rw [heq] at hexited ⊢
    rcases hempty hexited with hjobs | ⟨-, hnum⟩
    · exact hjobs
    · have hle := h.le_numJobs
      have hlen : s.jobs.length = 0 := by omega
      exact List.eq_nil_of_length_eq_zero hlen
  · rw [heq] at hexited
    cases hexited
  · rw [heq] at hexited
    cases hexited

theorem workerStep_jobs_subset (hphase : phase.Exited = false) :
    ∀ job ∈ (s.workerStep phase).1.jobs, job ∈ s.jobs := by
  rcases workerStep_cases (s := s) hphase with ⟨phase', heq, -⟩ | ⟨l, job, jobs, rfl, hjobs, heq⟩ |
    ⟨l, rfl, heq⟩
  · rw [heq]
    exact fun _ => id
  · rw [heq, hjobs]
    exact fun _ => List.mem_cons_of_mem job
  · rw [heq]
    exact fun _ => id

theorem Drains.workerStep (h : Drains s) (hw : s.workers[w]? = some phase) (hmay : s.MayWork w phase) :
    Drains { (s.workerStep phase).1 with workers := s.workers.set w (s.workerStep phase).2 } := by
  have hinv := h.toInv.workerStep hw hmay
  have hsub := workerStep_jobs_subset (s := s) hmay.1
  have hnil := h.jobs_eq_nil hmay.1
  obtain ⟨-, hcalls, -⟩ := workerStep_frame (s := s) hmay.1
  obtain ⟨hlt, -⟩ := List.getElem?_eq_some_iff.1 hw
  generalize s.workerStep phase = result at *
  obtain ⟨t, phase'⟩ := result
  -- While there are jobs in the queue, the worker has not exited.
  have hexited : ∀ job ∈ t.jobs, phase'.Exited = false := by
    intro job hjob
    by_contra hexited
    rw [hnil (eq_true_of_ne_false hexited)] at hjob
    cases hjob
  refine ⟨hinv, ?_, ?_, ?_, ?_⟩
  · intro hset
    exact h.nonempty ((List.set_eq_nil_iff ..).1 hset)
  · exact fun x hx => h.single x (hcalls ▸ hx)
  · intro job hjob hearly p hp
    rcases List.mem_or_eq_of_mem_set hp with hp | rfl
    · exact h.early job (hsub job hjob) hearly p hp
    · exact hexited job hjob
  · intro job hjob w' hw'
    dsimp only at hjob ⊢
    by_cases hww' : w = w'
    · subst hww'
      exact ⟨phase', List.getElem?_set_self hlt, hexited job hjob⟩
    · rw [List.getElem?_set_ne hww']
      exact h.pusher job (hsub job hjob) w' hw'

end Steps

theorem Drains.step {s s' : ThreadPool η} {a : Action η} {o : Unit} (h : Drains s) (ha : a.Single)
    (hstep : s.step a = some (o, s')) : Drains s' := by
  have hinv := h.toInv.step hstep
  rcases step_cases hstep with ⟨rfl, rfl⟩ | ⟨pusher, c, rfl, -, -, rfl⟩ |
    ⟨i, pusher, c, rfl, hcall, rfl⟩ | ⟨w, phase, rfl, hw, hmay, rfl⟩
  · exact ⟨hinv, h.nonempty, h.single, h.early, h.pusher⟩
  · refine ⟨hinv, h.nonempty, fun x hx => ?_, h.early, h.pusher⟩
    rcases List.mem_append.1 hx with hx | hx
    · exact h.single x hx
    · rw [List.mem_singleton.1 hx]
      exact ha
  · exact h.callStep hcall
  · exact h.workerStep hw hmay

/-- In every order of the steps of calls with single handles, of any number of workers and of `shutdown`: no push is
    popped twice, or popped and still in the queue; the counter is no less than what is queued and executed; and
    when all workers have exited, nothing is left in the queue that was pushed while the pool was running, or by
    the job of a worker. -/
theorem queue_drained (concurrency : ℕ) (actions : List (Action η)) (hsingle : ∀ a ∈ actions, a.Single)
    (outs : List Unit) (s : ThreadPool η) (h : exec step (init concurrency) actions = some (outs, s)) :
    s.popped.Nodup ∧ (∀ job ∈ s.jobs, job.id ∉ s.popped) ∧
      s.jobs.length + s.workers.countP Phase.Busy ≤ s.numJobs ∧
      ((∀ p ∈ s.workers, p.Exited) → ∀ job ∈ s.jobs, job.early = false ∧ job.pusher = none) := by
  have hdrains : Drains s := (along_of_forall hsingle _).invariant Drains
    (fun _ _ _ _ h ha hstep => h.step ha hstep) (drains_init concurrency) h
  obtain ⟨-, hpopped, hdisjoint⟩ := List.nodup_append.1 hdrains.nodup
  refine ⟨hpopped, fun job hjob hid => hdisjoint _ (List.mem_map_of_mem hjob) _ hid rfl,
    hdrains.le_numJobs, fun hall job hjob => ⟨?_, ?_⟩⟩
  · obtain ⟨p, ps, hworkers⟩ := List.exists_cons_of_ne_nil hdrains.nonempty
    have hp : p ∈ s.workers := hworkers ▸ List.mem_cons_self
    by_contra hearly
    have hexited := hdrains.early job hjob (eq_true_of_ne_false hearly) p hp
    rw [hall p hp] at hexited
    cases hexited
  · rcases hpusher : job.pusher with _ | w
    · rfl
    · obtain ⟨p, hp, hexited⟩ := hdrains.pusher job hjob w hpusher
      rw [hall p (List.mem_of_getElem? hp)] at hexited
      cases hexited

/-- The job of the only worker schedules another one when the pool is shut down. -/
theorem queue_drained_one :
    let actions : List (Action ℕ) :=
      [.call none (.schedule (some 7) false), .goOn 0, .goOn 0, .work 0, .work 0, .shutdown,
        .call (some 0) (.schedule (some 8) false), .goOn 0, .goOn 0, .work 0, .work 0, .work 0, .work 0, .work 0,
        .work 0, .work 0, .work 0]
    ∃ outs s, exec step (init 1) actions = some (outs, s) ∧ s.workers = [.exited] ∧ s.popped = [1, 0] ∧
      s.popped.Nodup ∧ (∀ job ∈ s.jobs, job.id ∉ s.popped) ∧
      s.jobs.length + s.workers.countP Phase.Busy ≤ s.numJobs ∧
      ((∀ p ∈ s.workers, p.Exited) → ∀ job ∈ s.jobs, job.early = false ∧ job.pusher = none) := by
  intro actions
  exact ⟨_, _, rfl, rfl, rfl, queue_drained 1 actions (by decide) _ _ rfl⟩

end ThreadPool

end Cppnet.Coro
