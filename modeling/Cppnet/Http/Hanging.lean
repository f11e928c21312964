import Cppnet.Http.Calls

/-!
# Calls that hang

When all workers wait, for connections that are lent or for the lock of those that wait, the calls that have the
connections cannot go on, and so never give them back.

* `hangs_iff`: if no connection fails, there is a run in which some call comes to wait for ever, with no more than `n`
  calls at a time, if and only if `n` is at least the number of connections for a host and of workers together.
-/

namespace Cppnet.Http

open Lib Util

namespace Calls

variable {s s' : Calls} {i : ℕ} {name : Bytes} {phase phase' : Phase}

/-! ## Runs -/

/-- A step in which no connection fails. -/
def Action.Connects : Action → Prop
  | .work connects _ => connects = true
  | .write _ connects => connects = true
  | _ => True

/-- The step of a client that makes no more than `n` calls at a time. -/
def AtMost (n : ℕ) (s : Calls) : Action → Prop
  | .send _ => s.unfinished < n
  | _ => True

/-- A run without a connection that fails, and with no more than `n` calls at a time. -/
def Reaches (n : ℕ) (s s' : Calls) : Prop :=
  ∃ as os, exec step s as = some (os, s') ∧ (∀ a ∈ as, a.Connects) ∧ Along step (AtMost n) s as

/-- A call that is never over, whatever happens. -/
def Hangs (s : Calls) (i : ℕ) : Prop :=
  ∀ as os s', exec step s as = some (os, s') → ∃ c ∈ s'.calls[i]?, c.phase ≠ .done

theorem Reaches.refl (n : ℕ) (s : Calls) : Reaches n s s := ⟨[], [], rfl, by simp, trivial⟩

theorem step_eq_some {a : Action} {o : Unit} : s.step a = some (o, s') ↔ s.next a = some s' := by
  rw [step, Option.map_eq_some_iff]
  simp

theorem Reaches.head {n : ℕ} {s₁ : Calls} {a : Action} (ha : a.Connects) (hn : AtMost n s a)
    (hnext : s.next a = some s₁) (h : Reaches n s₁ s') : Reaches n s s' := by
  obtain ⟨as, os, hexec, hconnects, halong⟩ := h
  refine ⟨a :: as, () :: os, exec_cons_eq_some.2 ⟨(), s₁, os, step_eq_some.2 hnext, hexec, rfl⟩,
    List.forall_mem_cons.2 ⟨ha, hconnects⟩, hn, fun o s₂ hstep => ?_⟩
  rw [step_eq_some, hnext] at hstep
  cases hstep
  exact halong

theorem Reaches.trans {n : ℕ} {s₁ s₂ : Calls} (h : Reaches n s s₁) (h' : Reaches n s₁ s₂) : Reaches n s s₂ := by
  obtain ⟨as, os, hexec, hconnects, halong⟩ := h
  induction as generalizing s os with
  | nil =>
    cases hexec
    exact h'
  | cons a as ih =>
    obtain ⟨o, s₃, os', hstep, hrest, -⟩ := exec_cons_eq_some.1 hexec
    rw [List.forall_mem_cons] at hconnects
    exact .head hconnects.1 halong.1 (step_eq_some.1 hstep) (ih _ hrest hconnects.2 (halong.2 o s₃ hstep))

/-- The calls that are not over. -/
theorem Moves.unfinished (hm : Moves s s' i name phase phase') (hdone : phase ≠ .done) :
    s'.unfinished ≤ s.unfinished := by
  have hcount : s'.unfinished + _ = s.unfinished + _ := hm.count (· ≠ .done)
  have hle := Bool.toNat_le (decide (phase' ≠ .done))
  rw [decide_eq_true hdone] at hcount
  change s'.unfinished + 1 = _ at hcount
  omega

/-- What a step comes to, in which no connection fails. -/
theorem Inv.next (h : s.Inv) {a : Action} (ha : a.Connects) (hnext : s.next a = some s') :
    s'.Inv ∧ ((∃ name, a = .send name ∧ s'.unfinished = s.unfinished + 1) ∨ s'.unfinished ≤ s.unfinished) ∧
      s'.workers = s.workers ∧ s'.maxConnectionsPerHost = s.maxConnectionsPerHost := by
  cases a with
  | send name =>
    obtain ⟨s₁, hs₁, hinv, hcount⟩ := h.send name
    cases hs₁.symm.trans hnext
    cases hnext
    exact ⟨hinv, .inl ⟨name, rfl, hcount⟩, rfl, rfl⟩
  | work connects returns =>
    have hnext' := hnext
    rw [Calls.next] at hnext'
    split at hnext'
    · cases hnext'
    · next i jobs hjobs =>
      obtain rfl : connects = true := ha
      obtain ⟨hlt, -⟩ := Option.ite_none_right_eq_some.1 hnext'
      obtain ⟨s₁, name, phase, phase', hs₁, hinv, hm, hqueued, -⟩ := h.work hjobs hlt returns
      cases hs₁.symm.trans hnext
      refine ⟨hinv, .inr (hm.unfinished ?_), hm.workers, hm.max⟩
      rintro rfl
      cases hqueued
  | write i connects =>
    have hnext' := hnext
    rw [Calls.next] at hnext'
    split at hnext'
    · next name hi =>
      obtain rfl : connects = true := ha
      obtain ⟨hzero, -⟩ := Option.ite_none_right_eq_some.1 hnext'
      obtain ⟨s₁, phase', hs₁, hinv, hm, -⟩ := h.write hi hzero
      cases hs₁.symm.trans hnext
      exact ⟨hinv, .inr (hm.unfinished (by simp)), hm.workers, hm.max⟩
    · cases hnext'
  | wake i =>
    have hnext' := hnext
    rw [Calls.next] at hnext'
    split at hnext'
    · next name hi =>
      have hpool : (s.pool name).pool ≠ [] := by
        intro hnil
        rw [ResourcePool.wake, ResourcePool.take, hnil] at hnext'
        cases hnext'
      obtain ⟨s₁, hs₁, hinv, hm⟩ := h.wake hi hpool
      cases hs₁.symm.trans hnext
      exact ⟨hinv, .inr (hm.unfinished (by simp)), hm.workers, hm.max⟩
    · cases hnext'
  | complete i =>
    have hnext' := hnext
    rw [Calls.next] at hnext'
    split at hnext'
    · next name hi =>
      obtain ⟨s₁, hs₁, hinv, hm⟩ := h.complete hi
      cases hs₁.symm.trans hnext
      exact ⟨hinv, .inr (hm.unfinished (by simp)), hm.workers, hm.max⟩
    · cases hnext'

/-- At most `n` calls are not over. -/
theorem Inv.reaches {n : ℕ} (h : s.Inv) (hn : s.unfinished ≤ n) (hreaches : Reaches n s s') :
    s'.Inv ∧ s'.unfinished ≤ n ∧ s'.workers = s.workers ∧ s'.maxConnectionsPerHost = s.maxConnectionsPerHost := by
  obtain ⟨as, os, hexec, hconnects, halong⟩ := hreaches
  induction as generalizing s os with
  | nil =>
    cases hexec
    exact ⟨h, hn, rfl, rfl⟩
  | cons a as ih =>
    obtain ⟨o, s₁, os', hstep, hrest, -⟩ := exec_cons_eq_some.1 hexec
    rw [List.forall_mem_cons] at hconnects
    obtain ⟨hinv, hcount, hworkers, hmax⟩ := h.next hconnects.1 (step_eq_some.1 hstep)
    rw [← hworkers, ← hmax]
    refine ih hinv ?_ _ hrest hconnects.2 (halong.2 o s₁ hstep)
    rcases hcount with ⟨name, rfl, hcount⟩ | hle
    · rw [hcount]
      exact halong.1
    · exact hle.trans hn

/-! ## Where nothing goes on -/

/-- All workers wait, and some of them for connections that are all lent, with the lock that the others wait for. -/
structure Dead (s : Calls) : Prop where
  busy : s.busy = s.workers
  blocked : 0 < s.blocked
  empty : ∀ c ∈ s.calls, c.phase = .blocked → (s.pool c.name).pool = []

theorem Dead.not_work (h : s.Dead) (connects returns : Bool) : s.next (.work connects returns) = none := by
  rw [next]
  rcases s.jobs with _ | ⟨i, jobs⟩
  · rfl
  · exact if_neg (h.busy ▸ lt_irrefl _)

/-- No worker goes on from there. -/
theorem Dead.next (h : s.Dead) {a : Action} (hnext : s.next a = some s') :
    s'.Dead ∧ ∀ (i : ℕ) (c : Call), s.calls[i]? = some c → c.phase ≠ .done →
      ∃ c' ∈ s'.calls[i]?, c'.phase ≠ .done := by
  cases a with
  | send name =>
    cases hnext
    refine ⟨⟨(count_concat _ _).trans h.busy, ?_, fun c hc hphase => ?_⟩, fun i c hi hc => ⟨c, ?_, hc⟩⟩
    · exact h.blocked.trans_eq (count_concat _ (· = .blocked)).symm
    · rcases List.mem_append.1 hc with hc | hc
      · exact h.empty c hc hphase
      · rw [List.mem_singleton.1 hc] at hphase
        cases hphase
    · exact (List.getElem?_append_left (List.getElem?_eq_some_iff.1 hi).1).trans hi
  | work connects returns =>
    rw [h.not_work] at hnext
    cases hnext
  | write i connects =>
    rw [Calls.next] at hnext
    split at hnext
    · rw [if_neg h.blocked.ne'] at hnext
      cases hnext
    · cases hnext
  | wake i =>
    rw [Calls.next] at hnext
    split at hnext
    · next name hi =>
      rw [ResourcePool.wake, ResourcePool.take, h.empty ⟨name, .blocked⟩ (List.mem_of_getElem? hi) rfl] at hnext
      cases hnext
    · cases hnext
  | complete i =>
    rw [Calls.next] at hnext
    split at hnext
    · next name hi =>
      have hm := moves_setPhase hi .resumed (s.jobs ++ [i])
      cases hnext
      refine ⟨⟨(hm.count Phase.busy).trans h.busy, ?_, fun c hc hphase => ?_⟩, fun j c hj hc => ?_⟩
      · exact h.blocked.trans_eq (hm.count (· = .blocked)).symm
      · rcases List.mem_or_eq_of_mem_set hc with hc | rfl
        · exact h.empty c hc hphase
        · cases hphase
      · by_cases hji : j = i
        · rw [hji]
          exact ⟨_, hm.getElem?_self, by simp⟩
        · exact ⟨c, (hm.getElem?_of_ne hji).trans hj, hc⟩
    · cases hnext

/-- So the calls that are not over hang. -/
theorem Dead.hangs (h : s.Dead) {c : Call} (hi : s.calls[i]? = some c) (hc : c.phase ≠ .done) : s.Hangs i := by
  intro as os s' hexec
  induction as generalizing s c os with
  | nil =>
    cases hexec
    exact ⟨c, hi, hc⟩
  | cons a as ih =>
    obtain ⟨o, s₁, os', hstep, hrest, -⟩ := exec_cons_eq_some.1 hexec
    obtain ⟨h₁, hcalls⟩ := h.next (step_eq_some.1 hstep)
    obtain ⟨c', hc', hphase⟩ := hcalls i c hi hc
    exact ih h₁ hc' hphase _ hrest

/-- All connections for a host are lent then, and all workers wait. -/
theorem Dead.le_unfinished (h : s.Dead) (hinv : s.Inv) : s.maxConnectionsPerHost + s.workers ≤ s.unfinished := by
  obtain ⟨⟨name, phase⟩, hc, hphase⟩ := List.countP_pos_iff.1 h.blocked
  obtain rfl : phase = .blocked := of_decide_eq_true hphase
  have hp := hinv.pools name
  have hpos : 0 < s.countAt name (· = .blocked) := List.countP_pos_iff.2 ⟨_, hc, by simp⟩
  have hlent := hp.full hpos
  rw [h.empty _ hc rfl, List.length_nil, Nat.zero_add] at hlent
  rw [← hlent, ← h.busy]
  refine countP_add_le (fun c hc => ?_) (fun c hc => ?_) fun c hc => ?_
  · cases hphase : c.phase <;> simp_all [Phase.lent, Phase.busy]
  · cases hphase : c.phase <;> simp_all [Phase.lent]
  · cases hphase : c.phase <;> simp_all [Phase.busy]

/-- Anywhere else, a step is possible that leaves less to do. -/
theorem Inv.progress (h : s.Inv) (hmax : 0 < s.maxConnectionsPerHost) (hdead : ¬s.Dead) (hpos : 0 < s.unfinished) :
    ∃ a s', a.Connects ∧ (∀ name, a ≠ .send name) ∧ s.next a = some s' ∧ s'.Inv ∧
      leftOf s'.calls < leftOf s.calls := by
  by_cases hwake : ∃ c ∈ s.calls, c.phase = .blocked ∧ (s.pool c.name).pool ≠ []
  · obtain ⟨⟨name, phase⟩, hc, rfl, hpool⟩ := hwake
    obtain ⟨i, hi⟩ := List.mem_iff_getElem?.1 hc
    obtain ⟨s', hs', hinv, hm⟩ := h.wake hi hpool
    exact ⟨.wake i, s', trivial, by simp, hs', hinv, hm.leftOf (by decide)⟩
  push Not at hwake
  have hlt : s.busy < s.workers := by
    rcases Nat.eq_zero_or_pos s.blocked with hzero | hblocked
    · exact h.free hzero
    · exact lt_of_le_of_ne h.le fun hbusy => hdead ⟨hbusy, hblocked, hwake⟩
  rcases hjobs : s.jobs with _ | ⟨i, jobs⟩
  swap
  · obtain ⟨s', name, phase, phase', hs', hinv, hm, -, hleft⟩ := h.work hjobs hlt true
    exact ⟨.work true true, s', rfl, by simp, hs', hinv, hm.leftOf (hleft rfl)⟩
  have hqueued : ∀ c ∈ s.calls, c.phase.queued = false := by
    intro c hc
    obtain ⟨i, hi⟩ := List.mem_iff_getElem?.1 hc
    rw [← Bool.not_eq_true]
    intro hq
    have hmem := (h.jobs i).2 ⟨c, hi, hq⟩
    rw [hjobs] at hmem
    cases hmem
  by_cases hsending : ∃ c ∈ s.calls, c.phase = .sending
  · obtain ⟨⟨name, phase⟩, hc, rfl⟩ := hsending
    obtain ⟨i, hi⟩ := List.mem_iff_getElem?.1 hc
    obtain ⟨s', hs', hinv, hm⟩ := h.complete hi
    exact ⟨.complete i, s', trivial, by simp, hs', hinv, hm.leftOf (by decide)⟩
  push Not at hsending
  -- No connection is lent, so nobody waits for one.
  have hzero : s.blocked = 0 := by
    refine List.countP_eq_zero.2 fun c hc hphase => ?_
    have hblocked : c.phase = .blocked := of_decide_eq_true hphase
    have hnone : s.countAt c.name Phase.lent = 0 := by
      refine List.countP_eq_zero.2 fun c' hc' hlent => ?_
      have hq := hqueued c' hc'
      have hs := hsending c' hc'
      cases hphase' : c'.phase <;> simp_all [Phase.lent, Phase.queued]
    have hfull := (h.pools c.name).full (List.countP_pos_iff.2 ⟨c, hc, by simp [hblocked]⟩)
    rw [hwake c hc hblocked, hnone] at hfull
    exact hmax.ne hfull
  obtain ⟨⟨name, phase⟩, hc, hphase⟩ := List.countP_pos_iff.1 hpos
  have hq := hqueued _ hc
  have hs := hsending _ hc
  have hb := List.countP_eq_zero.1 hzero _ hc
  obtain rfl : phase = .writing := by cases phase <;> simp_all [Phase.queued]
  obtain ⟨i, hi⟩ := List.mem_iff_getElem?.1 hc
  obtain ⟨s', phase', hs', hinv, hm, hleft⟩ := h.write hi hzero
  exact ⟨.write i true, s', rfl, by simp, hs', hinv, hm.leftOf hleft⟩

/-- Without new calls, all calls come to their ends, or no worker goes on. -/
theorem Inv.settles (h : s.Inv) (hmax : 0 < s.maxConnectionsPerHost) (n : ℕ) :
    ∃ s', Reaches n s s' ∧ (s'.Dead ∨ s'.unfinished = 0) := by
  induction hleft : leftOf s.calls using Nat.strong_induction_on generalizing s with
  | h left ih =>
    by_cases hend : s.Dead ∨ s.unfinished = 0
    · exact ⟨s, .refl n s, hend⟩
    · rw [not_or] at hend
      obtain ⟨a, s₁, ha, hsend, hnext, hinv, hlt⟩ := h.progress hmax hend.1 (Nat.pos_of_ne_zero hend.2)
      obtain ⟨-, -, -, hmax'⟩ := h.next ha hnext
      obtain ⟨s', hreaches, hs'⟩ := ih _ (hleft ▸ hlt) hinv (hmax' ▸ hmax) rfl
      refine ⟨s', .head ha ?_ hnext hreaches, hs'⟩
      cases a with
      | send name => exact absurd rfl (hsend name)
      | _ => trivial

/-! ## Calls to one host -/

/-- Calls to one host, of which `j` have been begun, and `k` have not. -/
structure Filling (s : Calls) (max workers : ℕ) (name : Bytes) (j k : ℕ) : Prop where
  inv : s.Inv
  max : s.maxConnectionsPerHost = max
  workers : s.workers = workers
  calls : ∀ c ∈ s.calls, c.name = name ∧ (c.phase = .ready ∨ c.phase = .blocked ∨ c.phase = .sending)
  jobs : s.jobs.length = k
  begun : s.countAt name Phase.lent + s.blocked = j
  pool : (s.pool name).pool = []
  unfinished : s.unfinished = j + k

variable {max workers j k n : ℕ}

theorem filling_new (concurrency max : ℕ) (name : Bytes) :
    Filling (new concurrency max) max (new concurrency max).workers name 0 0 where
  inv := inv_new concurrency max
  max := rfl
  workers := rfl
  calls := by simp [new]
  jobs := rfl
  begun := rfl
  pool := rfl
  unfinished := rfl

theorem Filling.send (h : Filling s max workers name j k) :
    ∃ s', s.next (.send name) = some s' ∧ Filling s' max workers name j (k + 1) := by
  obtain ⟨s', hs', hinv, hcount⟩ := h.inv.send name
  refine ⟨s', hs', ?_⟩
  cases hs'
  refine ⟨hinv, h.max, h.workers, fun c hc => ?_, ?_, ?_, h.pool, hcount.trans (congrArg (· + 1) h.unfinished)⟩
  · rcases List.mem_append.1 hc with hc | hc
    · exact h.calls c hc
    · rw [List.mem_singleton.1 hc]
      exact ⟨rfl, .inl rfl⟩
  · rw [List.length_append, h.jobs]
    rfl
  · rw [countAt_concat _ rfl]
    exact (congrArg _ (count_concat _ (· = .blocked))).trans h.begun

/-- All calls are for the host. -/
theorem Filling.countAt_blocked (h : Filling s max workers name j k) : s.countAt name (· = .blocked) = s.blocked := by
  refine List.countP_congr fun c hc => ?_
  simp [(h.calls c hc).1]

/-- Who waits, waits for a connection. -/
theorem Filling.busy_eq (h : Filling s max workers name j k) : s.busy = s.blocked := by
  refine List.countP_congr fun c hc => ?_
  rcases (h.calls c hc).2 with hphase | hphase | hphase <;> simp [hphase, Phase.busy]

/-- If some call waits, all connections are lent. -/
theorem Filling.lent_eq (h : Filling s max workers name j k) (hpos : 0 < s.blocked) :
    s.countAt name Phase.lent = max := by
  have hfull := (h.inv.pools name).full (h.countAt_blocked ▸ hpos)
  rwa [h.pool, List.length_nil, Nat.zero_add, h.max] at hfull

/-- The next call is begun, as long as there are connections to lend and workers that do not wait. -/
theorem Filling.work (h : Filling s max workers name j (k + 1)) (hj : j < max + workers) :
    ∃ s', s.next (.work true true) = some s' ∧ Filling s' max workers name (j + 1) k := by
  obtain ⟨i, jobs, hjobs⟩ := List.exists_cons_of_length_eq_add_one h.jobs
  have hlen := h.jobs
  rw [hjobs, List.length_cons] at hlen
  have hlt : s.busy < s.workers := by
    rcases Nat.eq_zero_or_pos s.blocked with hzero | hpos
    · exact h.inv.free hzero
    · have hlent := h.lent_eq hpos
      have hbegun := h.begun
      rw [h.busy_eq, h.workers]
      omega
  obtain ⟨hnodup, hmem⟩ := h.inv.of_cons hjobs
  obtain ⟨⟨name', phase⟩, hi, hqueued⟩ := (h.inv.jobs i).1 (hjobs ▸ List.mem_cons_self)
  obtain ⟨hname, hphase⟩ := h.calls _ (List.mem_of_getElem? hi)
  obtain rfl : name' = name := hname
  obtain rfl : phase = .ready := by
    rcases hphase with hphase | rfl | rfl
    · exact hphase
    · cases hqueued
    · cases hqueued
  obtain ⟨s', phase', hget, hinv, hm, hphase', hjobs', htail⟩ :=
    h.inv.getConnection hi (.inl ⟨rfl, hlt⟩) hmem hnodup
  refine ⟨s', ?_, hinv, hm.max.trans h.max, hm.workers.trans h.workers, fun c hc => ?_, ?_, ?_, ?_, ?_⟩
  · rw [Calls.next, hjobs]
    refine (if_pos hlt).trans ?_
    rw [run, hi]
    refine (if_neg ?_).trans hget
    rintro ⟨hnone, hpos⟩
    have hwaiting := (h.inv.pools name').numWaiting
    rw [Calls.pool, hnone, h.countAt_blocked] at hwaiting
    exact hpos.ne hwaiting
  · rw [hm.calls] at hc
    rcases List.mem_or_eq_of_mem_set hc with hc | rfl
    · exact h.calls c hc
    · exact ⟨rfl, .inr (hphase'.elim .inr .inl)⟩
  · rw [hjobs']
    omega
  · have hlent := hm.countAt Phase.lent
    have hblocked : s'.blocked + _ = s.blocked + _ := hm.count (· = .blocked)
    have hbegun := h.begun
    rcases hphase' with rfl | rfl <;> simp [Phase.lent] at hlent hblocked <;> omega
  · rw [htail, h.pool]
    rfl
  · have hcount : s'.unfinished + _ = s.unfinished + _ := hm.count (· ≠ .done)
    have hunfinished := h.unfinished
    rcases hphase' with rfl | rfl <;> simp at hcount <;> omega

theorem Filling.sends (h : Filling s max workers name 0 k) {r : ℕ} (hn : k + r ≤ n) :
    ∃ s', Reaches n s s' ∧ Filling s' max workers name 0 (k + r) := by
  induction r generalizing s k with
  | zero => exact ⟨s, .refl n s, h⟩
  | succ r ih =>
    obtain ⟨s₁, hs₁, h₁⟩ := h.send
    obtain ⟨s', hreaches, h'⟩ := ih h₁ (by omega)
    rw [Nat.add_assoc, Nat.add_comm 1 r] at h'
    refine ⟨s', .head (a := .send name) trivial ?_ hs₁ hreaches, h'⟩
    have hunfinished := h.unfinished
    change s.unfinished < n
    omega

theorem Filling.works (h : Filling s max workers name j k) {r : ℕ} (hk : r ≤ k) (hj : j + r ≤ max + workers) :
    ∃ s', Reaches n s s' ∧ Filling s' max workers name (j + r) (k - r) := by
  induction r generalizing s j k with
  | zero => exact ⟨s, .refl n s, h⟩
  | succ r ih =>
    obtain ⟨k, rfl⟩ := Nat.exists_eq_add_of_le' (Nat.one_le_of_lt (Nat.lt_of_succ_le hk))
    obtain ⟨s₁, hs₁, h₁⟩ := h.work (by omega)
    obtain ⟨s', hreaches, h'⟩ := ih h₁ (by omega) (by omega)
    refine ⟨s', .head (a := .work true true) rfl trivial hs₁ hreaches, ?_⟩
    rwa [Nat.add_assoc, Nat.add_comm 1 r, ← Nat.add_sub_add_right k 1 r] at h'

/-- When as many calls have been begun as there are connections for the host, and workers, all workers wait. -/
theorem Filling.dead (h : Filling s max workers name (max + workers) k) : s.Dead := by
  have hle := (h.inv.pools name).le
  rw [h.pool, List.length_nil, Nat.zero_add, h.max] at hle
  have hbegun := h.begun
  have hbusy := h.busy_eq
  have hworkers := h.inv.le
  have hfree := h.inv.free
  rw [h.workers] at hworkers hfree
  refine ⟨by rw [h.workers]; omega, ?_, fun c hc _ => ?_⟩
  · by_contra hnot
    have hlt := hfree (Nat.eq_zero_of_not_pos hnot)
    omega
  · rw [(h.calls c hc).1]
    exact h.pool

/-- When no connection fails, a client comes to where a call hangs, in a run with no more than `n` calls at a time, if
    and only if `n` is at least the number of connections for a host and the number of workers together. -/
theorem hangs_iff (concurrency : ℕ) {maxConnectionsPerHost : ℕ} (hmax : 0 < maxConnectionsPerHost) (n : ℕ) :
    (∃ s i, Reaches n (new concurrency maxConnectionsPerHost) s ∧ s.Hangs i) ↔
      maxConnectionsPerHost + (new concurrency maxConnectionsPerHost).workers ≤ n := by
  have hinit := inv_new concurrency maxConnectionsPerHost
  constructor
  · rintro ⟨s, i, hreaches, hhangs⟩
    obtain ⟨s', hsettles, hend⟩ := (hinit.reaches (Nat.zero_le n) hreaches).1.settles
      ((hinit.reaches (Nat.zero_le n) hreaches).2.2.2 ▸ hmax) n
    obtain ⟨hinv, hle, hworkers, hmax'⟩ := hinit.reaches (Nat.zero_le n) (hreaches.trans hsettles)
    obtain ⟨as, os, hexec, -⟩ := hsettles
    obtain ⟨c, hc, hphase⟩ := hhangs as os s' hexec
    rcases hend with hdead | hzero
    · have hbound := hdead.le_unfinished hinv
      rw [hworkers, hmax'] at hbound
      exact hbound.trans hle
    · exact absurd (by simpa using hphase) (List.countP_eq_zero.1 hzero c (List.mem_of_getElem? hc))
  · intro hn
    set workers := (new concurrency maxConnectionsPerHost).workers
    obtain ⟨s₁, hreaches₁, h₁⟩ := (filling_new concurrency maxConnectionsPerHost []).sends
      (r := maxConnectionsPerHost + workers) (n := n) (by omega)
    obtain ⟨s, hreaches, h⟩ := h₁.works (n := n) (r := maxConnectionsPerHost + workers) (by omega) (by omega)
    rw [Nat.zero_add] at h
    have hdead := h.dead
    obtain ⟨c, hc, hphase⟩ := List.countP_pos_iff.1 hdead.blocked
    obtain ⟨i, hi⟩ := List.mem_iff_getElem?.1 hc
    refine ⟨s, i, hreaches₁.trans hreaches, hdead.hangs hi ?_⟩
    rw [of_decide_eq_true hphase]
    simp

/-- With the four workers that there are without a number, and two connections for a host: a call can hang as soon as
    there are six at a time. -/
theorem hangs_iff_default :
    (∃ s i, Reaches 6 (new 0 2) s ∧ s.Hangs i) ∧ ¬∃ s i, Reaches 5 (new 0 2) s ∧ s.Hangs i := by
  refine ⟨(hangs_iff 0 (by decide) 6).2 (by decide), fun h => ?_⟩
  exact absurd ((hangs_iff 0 (by decide) 5).1 h) (by decide)

end Calls

end Cppnet.Http
