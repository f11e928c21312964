import Cppnet.Bytes
import Cppnet.Util.ResourcePool
import Mathlib.Logic.Function.Basic

/-!
# Calls of a client, and workers

`client::send` is run by the workers of a `thread_pool`. While a call waits for a connection in `resource_pool::get`,
its worker waits, and has `connections_mu`, shared, as `get_connection` returns what `get` returns. So no pool for
another host can be made in the meantime: a call that is to make one waits for the lock, and so does its worker. Who
has a connection waits for the operations on it without a worker, but needs one to go on.

The steps are `Calls.next`. As long as no connection fails, they keep `Calls.Inv`: every pool counts the connections
that its calls have and the calls that wait, and if no call has the lock, there is a worker that does not wait.
-/

namespace Cppnet.Http

open Lib Util Function

/-- Where a call of `send` is: to be begun by a worker; in `get`, with the lock; before the lock; with a connection,
    waiting for an operation, or to be resumed by a worker; or over. -/
inductive Phase
  | ready
  | blocked
  | writing
  | sending
  | resumed
  | done
  deriving DecidableEq

namespace Phase

/-- It has a worker, which waits. -/
def busy : Phase → Bool
  | blocked | writing => true
  | _ => false

/-- It has a connection. -/
def lent : Phase → Bool
  | sending | resumed => true
  | _ => false

/-- It is among the jobs of the workers. -/
def queued : Phase → Bool
  | ready | resumed => true
  | _ => false

/-- After `get`, or an exception. -/
def after {ρ : Type*} : Outcome ρ → Phase
  | .borrowed _ => sending
  | .waits => blocked
  | _ => done

end Phase

/-- A call, with the name of the host and the port. -/
structure Call where
  name : Bytes
  phase : Phase
  deriving DecidableEq

/-- The calls of a client, its pools, and the workers with their jobs, which are calls by number. -/
structure Calls where
  workers : ℕ
  maxConnectionsPerHost : ℕ
  connections : Bytes → Option (ResourcePool Unit) := fun _ => none
  calls : List Call := []
  jobs : List ℕ := []

namespace Calls

variable (s : Calls)

/-- A client that makes no calls. Without a number of threads, `thread_pool` makes four. -/
def new (concurrency maxConnectionsPerHost : ℕ) : Calls where
  workers := if concurrency = 0 then 4 else concurrency
  maxConnectionsPerHost

/-- How many calls are somewhere. -/
def count (p : Phase → Bool) : ℕ := s.calls.countP fun c => p c.phase

/-- How many calls for one host are somewhere. -/
def countAt (name : Bytes) (p : Phase → Bool) : ℕ := s.calls.countP fun c => c.name = name ∧ p c.phase

/-- The workers that wait. -/
def busy : ℕ := s.count Phase.busy

/-- The calls that have the lock. -/
def blocked : ℕ := s.count (· = .blocked)

/-- The calls that are not over. -/
def unfinished : ℕ := s.count (· ≠ .done)

/-- The pool for a host, or the one that is made for it. -/
def pool (name : Bytes) : ResourcePool Unit :=
  (s.connections name).getD { targetSize := s.maxConnectionsPerHost, maxSize := s.maxConnectionsPerHost }

/-- The call is somewhere else. -/
def setPhase (i : ℕ) (name : Bytes) (phase : Phase) : Calls := { s with calls := s.calls.set i ⟨name, phase⟩ }

/-- After an operation of a pool. -/
def after (i : ℕ) (name : Bytes) (out : Outcome Unit × ResourcePool Unit) : Calls :=
  { s.setPhase i name (.after out.1) with connections := update s.connections name (some out.2) }

/-- `get_connection`, with the lock. -/
def getConnection (i : ℕ) (name : Bytes) (connects : Bool) : Option Calls :=
  ((s.pool name).get (if connects then some () else none)).map (s.after i name)

/-- A worker begins a call, or goes on with it, to where that returns or waits. -/
def run (i : ℕ) (connects returns : Bool) : Option Calls :=
  match s.calls[i]? with
  | some ⟨name, .ready⟩ =>
    if s.connections name = none ∧ 0 < s.blocked then some (s.setPhase i name .writing)
    else s.getConnection i name connects
  | some ⟨name, .resumed⟩ =>
    some (if returns then s.after i name (.released, (s.pool name).put ()) else s.setPhase i name .sending)
  | _ => none

/-- What happens: a call is made; a worker takes the next job; a call that waits for the lock gets it; one that waits
    for a connection gets it; the operation of one has completed. -/
inductive Action
  | send (name : Bytes)
  | work (connects returns : Bool)
  | write (i : ℕ) (connects : Bool)
  | wake (i : ℕ)
  | complete (i : ℕ)

/-- What happens next, if it is possible. -/
def next : Action → Option Calls
  | .send name =>
    some { s with calls := s.calls ++ [⟨name, .ready⟩], jobs := s.jobs ++ [s.calls.length] }
  | .work connects returns =>
    match s.jobs with
    | [] => none
    | i :: jobs => if s.busy < s.workers then run { s with jobs } i connects returns else none
  | .write i connects =>
    match s.calls[i]? with
    | some ⟨name, .writing⟩ => if s.blocked = 0 then s.getConnection i name connects else none
    | _ => none
  | .wake i =>
    match s.calls[i]? with
    | some ⟨name, .blocked⟩ => (s.pool name).wake.map (s.after i name)
    | _ => none
  | .complete i =>
    match s.calls[i]? with
    | some ⟨name, .sending⟩ => some { s.setPhase i name .resumed with jobs := s.jobs ++ [i] }
    | _ => none

/-- One step. -/
def step (a : Action) : Option (Unit × Calls) := (s.next a).map ((), ·)

end Calls

/-! ## Pools -/

/-- A pool with up to `max` connections, of which `lent` are lent, and `waiting` calls that wait for one. -/
structure Accounted (p : ResourcePool Unit) (max lent waiting : ℕ) : Prop where
  targetSize : p.targetSize = max
  maxSize : p.maxSize = max
  numBorrowed : p.numBorrowed = lent
  numWaiting : p.numWaiting = waiting
  le : p.pool.length + lent ≤ max
  full : 0 < waiting → p.pool.length + lent = max

namespace Accounted

variable {p : ResourcePool Unit} {max lent waiting : ℕ}

theorem new (max : ℕ) : Accounted { targetSize := max, maxSize := max } max 0 0 where
  targetSize := rfl
  maxSize := rfl
  numBorrowed := rfl
  numWaiting := rfl
  le := Nat.zero_le max
  full h := absurd h (lt_irrefl 0)

/-- A connection of the pool is lent. -/
theorem take (h : Accounted p max lent waiting) {x : Unit} {rest : List Unit} (hpool : p.pool = x :: rest) :
    Accounted { p with pool := rest, numBorrowed := p.numBorrowed + 1 } max (lent + 1) waiting := by
  have hlen : p.pool.length = rest.length + 1 := congrArg List.length hpool
  have hle := h.le
  exact
    { targetSize := h.targetSize
      maxSize := h.maxSize
      numBorrowed := congrArg (· + 1) h.numBorrowed
      numWaiting := h.numWaiting
      le := by
        dsimp only
        omega
      full := fun hpos => by
        have hfull := h.full hpos
        dsimp only
        omega }

/-- `get`, where a connection can be made. -/
theorem get (h : Accounted p max lent waiting) :
    ∃ p', p'.pool = p.pool.tail ∧
      (p.get (some ()) = some (.borrowed (), p') ∧ Accounted p' max (lent + 1) waiting ∨
        p.get (some ()) = some (.waits, p') ∧ Accounted p' max lent (waiting + 1)) := by
  have hmakes : p.numBorrowed < p.maxSize ↔ lent < max := by rw [h.numBorrowed, h.maxSize]
  rw [ResourcePool.get]
  by_cases hpool : p.pool = []
  · have hle := h.le
    have hfull := h.full
    rw [hpool, List.length_nil, Nat.zero_add] at hle hfull
    by_cases hlt : lent < max
    · rw [if_pos hpool, if_pos (hmakes.2 hlt)]
      refine ⟨_, by rw [hpool]; rfl, .inl ⟨rfl, h.targetSize, h.maxSize,
        congrArg (· + 1) h.numBorrowed, h.numWaiting, ?_, fun hpos => ?_⟩⟩
      · rw [hpool, List.length_nil, Nat.zero_add]
        exact hlt
      · exact absurd (hfull hpos) hlt.ne
    · have heq : lent = max := le_antisymm hle (not_lt.1 hlt)
      rw [if_pos hpool, if_neg (mt hmakes.1 hlt)]
      refine ⟨_, by rw [hpool]; rfl, .inr ⟨rfl, h.targetSize, h.maxSize, h.numBorrowed,
        congrArg (· + 1) h.numWaiting, h.le, fun _ => ?_⟩⟩
      rw [hpool, List.length_nil, Nat.zero_add]
      exact heq
  · obtain ⟨x, rest, hcons⟩ := List.exists_cons_of_ne_nil hpool
    rw [if_neg hpool, ResourcePool.take, hcons]
    exact ⟨_, rfl, .inl ⟨rfl, h.take hcons⟩⟩

/-- Whoever waited gets a connection of the pool. -/
theorem wake (h : Accounted p max lent (waiting + 1)) (hpool : p.pool ≠ []) :
    ∃ p', p.wake = some (.borrowed (), p') ∧ Accounted p' max (lent + 1) waiting := by
  obtain ⟨x, rest, hcons⟩ := List.exists_cons_of_ne_nil hpool
  rw [ResourcePool.wake, ResourcePool.take, hcons]
  have h' : Accounted { p with numWaiting := p.numWaiting - 1 } max lent waiting :=
    ⟨h.targetSize, h.maxSize, h.numBorrowed, by rw [h.numWaiting, Nat.add_sub_cancel], h.le,
      fun _ => h.full (Nat.succ_pos _)⟩
  exact ⟨_, rfl, h'.take hcons⟩

/-- What was lent is given back; there is always room for it. -/
theorem put (h : Accounted p max (lent + 1) waiting) : Accounted (p.put ()) max lent waiting := by
  have hle := h.le
  have hkept : p.put () = { p with pool := () :: p.pool, numBorrowed := p.numBorrowed - 1 } := by
    rw [ResourcePool.put]
    refine if_neg fun hdrop => ?_
    have hge : p.targetSize ≤ p.pool.length := hdrop.1
    rw [h.targetSize] at hge
    omega
  rw [hkept]
  refine ⟨h.targetSize, h.maxSize, by rw [h.numBorrowed, Nat.add_sub_cancel], h.numWaiting, ?_, fun hpos => ?_⟩
  · rw [List.length_cons]
    omega
  · have hfull := h.full hpos
    rw [List.length_cons]
    omega

end Accounted

/-! ## Counts -/

theorem countP_set_add {l : List Call} {i : ℕ} {c : Call} (hi : l[i]? = some c) (c' : Call) (p : Call → Bool) :
    (l.set i c').countP p + (p c).toNat = l.countP p + (p c').toNat := by
  obtain ⟨hlt, rfl⟩ := List.getElem?_eq_some_iff.1 hi
  rw [List.countP_set hlt]
  have hpos : p l[i] = true → 0 < l.countP p := fun hp => List.countP_pos_iff.2 ⟨l[i], List.getElem_mem hlt, hp⟩
  cases hp : p l[i] <;> cases p c' <;> simp_all

/-- What is at most one of two things is one of them at most once. -/
theorem countP_add_le {l : List Call} {p q r : Call → Bool} (hpq : ∀ c, p c → q c = false)
    (hp : ∀ c, p c → r c) (hq : ∀ c, q c → r c) : l.countP p + l.countP q ≤ l.countP r := by
  induction l with
  | nil => exact le_rfl
  | cons c l ih =>
    rw [List.countP_cons, List.countP_cons, List.countP_cons]
    have hpq := hpq c
    have hp := hp c
    have hq := hq c
    cases hpc : p c <;> cases hqc : q c <;> cases hrc : r c <;> simp_all <;> omega

namespace Calls

variable {s s' : Calls} {i : ℕ} {name : Bytes} {phase phase' : Phase}

/-- A call is somewhere else. -/
structure Moves (s s' : Calls) (i : ℕ) (name : Bytes) (phase phase' : Phase) : Prop where
  get : s.calls[i]? = some ⟨name, phase⟩
  calls : s'.calls = s.calls.set i ⟨name, phase'⟩
  workers : s'.workers = s.workers
  max : s'.maxConnectionsPerHost = s.maxConnectionsPerHost
  pool : ∀ name' ≠ name, s'.pool name' = s.pool name'

namespace Moves

theorem count (h : Moves s s' i name phase phase') (p : Phase → Bool) :
    s'.count p + (p phase).toNat = s.count p + (p phase').toNat := by
  rw [Calls.count, Calls.count, h.calls]
  exact countP_set_add h.get _ _

theorem countAt (h : Moves s s' i name phase phase') (p : Phase → Bool) :
    s'.countAt name p + (p phase).toNat = s.countAt name p + (p phase').toNat := by
  rw [Calls.countAt, Calls.countAt, h.calls]
  simpa using countP_set_add h.get ⟨name, phase'⟩ fun c => c.name = name ∧ p c.phase

theorem countAt_of_ne (h : Moves s s' i name phase phase') (p : Phase → Bool) {name' : Bytes} (hne : name' ≠ name) :
    s'.countAt name' p = s.countAt name' p := by
  rw [Calls.countAt, Calls.countAt, h.calls]
  simpa [hne.symm] using countP_set_add h.get ⟨name, phase'⟩ fun c => c.name = name' ∧ p c.phase

theorem getElem?_self (h : Moves s s' i name phase phase') : s'.calls[i]? = some ⟨name, phase'⟩ := by
  rw [h.calls]
  exact List.getElem?_set_self (List.getElem?_eq_some_iff.1 h.get).1

theorem getElem?_of_ne (h : Moves s s' i name phase phase') {j : ℕ} (hji : j ≠ i) : s'.calls[j]? = s.calls[j]? := by
  rw [h.calls]
  exact List.getElem?_set_ne hji.symm

end Moves

theorem moves_setPhase (hi : s.calls[i]? = some ⟨name, phase⟩) (phase' : Phase) (jobs : List ℕ) :
    Moves s { s.setPhase i name phase' with jobs } i name phase phase' :=
  ⟨hi, rfl, rfl, rfl, fun _ _ => rfl⟩

theorem moves_after (hi : s.calls[i]? = some ⟨name, phase⟩) (out : Outcome Unit × ResourcePool Unit) :
    Moves s (s.after i name out) i name phase (.after out.1) ∧ (s.after i name out).pool name = out.2 := by
  refine ⟨⟨hi, rfl, rfl, rfl, fun name' hne => ?_⟩, ?_⟩
  · change (update s.connections name (some out.2) name').getD _ = _
    rw [update_of_ne hne]
    rfl
  · change (update s.connections name (some out.2) name).getD _ = _
    rw [update_self]
    rfl

/-! ## The invariant -/

/-- What holds as long as no connection fails. -/
structure Inv (s : Calls) : Prop where
  jobs : ∀ i, i ∈ s.jobs ↔ ∃ c, s.calls[i]? = some c ∧ c.phase.queued
  nodup : s.jobs.Nodup
  le : s.busy ≤ s.workers
  /-- No worker waits for the lock for ever. -/
  free : s.blocked = 0 → s.busy < s.workers
  pools : ∀ name, Accounted (s.pool name) s.maxConnectionsPerHost (s.countAt name Phase.lent)
    (s.countAt name (· = .blocked))

theorem inv_new (concurrency maxConnectionsPerHost : ℕ) : (new concurrency maxConnectionsPerHost).Inv where
  jobs i := by simp [new]
  nodup := List.nodup_nil
  le := Nat.zero_le _
  free _ := by
    change 0 < if concurrency = 0 then 4 else concurrency
    split_ifs with h
    · decide
    · exact Nat.pos_of_ne_zero h
  pools name := .new _

/-- A call that goes somewhere else keeps what holds, if its worker, its pool and the jobs agree. -/
theorem Inv.moves (h : s.Inv) (hm : Moves s s' i name phase phase')
    (hjobs : ∀ j, j ∈ s'.jobs ↔ j = i ∧ phase'.queued = true ∨ j ≠ i ∧ j ∈ s.jobs) (hnodup : s'.jobs.Nodup)
    (hle : s.busy + phase'.busy.toNat ≤ s.workers + phase.busy.toNat)
    (hfree : phase ≠ .blocked ∧ (phase' = .blocked ∨ 0 < s.blocked) ∨
      s.busy + phase'.busy.toNat < s.workers + phase.busy.toNat)
    (hpool : ∀ lent waiting, lent + phase.lent.toNat = s.countAt name Phase.lent + phase'.lent.toNat →
      waiting + (decide (phase = .blocked)).toNat =
        s.countAt name (· = .blocked) + (decide (phase' = .blocked)).toNat →
      Accounted (s'.pool name) s.maxConnectionsPerHost lent waiting) : s'.Inv where
  jobs j := by
    rw [hjobs]
    by_cases hji : j = i
    · rw [hji, hm.getElem?_self]
      simp
    · rw [hm.getElem?_of_ne hji, ← h.jobs j]
      simp [hji]
  nodup := hnodup
  le := by
    have hbusy : s'.busy + _ = s.busy + _ := hm.count Phase.busy
    rw [hm.workers]
    omega
  free hzero := by
    have hbusy : s'.busy + _ = s.busy + _ := hm.count Phase.busy
    have hblocked : s'.blocked + _ = s.blocked + _ := hm.count (· = .blocked)
    rw [hm.workers]
    rw [hzero] at hblocked
    rcases hfree with ⟨hne, rfl | hpos⟩ | hlt
    · simp [hne] at hblocked
    · simp [hne] at hblocked
      omega
    · omega
  pools name' := by
    by_cases hname : name' = name
    · rw [hname, hm.max]
      exact hpool _ _ (hm.countAt _) (hm.countAt (· = .blocked))
    · rw [hm.pool name' hname, hm.max, hm.countAt_of_ne _ hname, hm.countAt_of_ne _ hname]
      exact h.pools name'

/-- The next job is taken. -/
theorem Inv.of_cons (h : s.Inv) {jobs : List ℕ} (hjobs : s.jobs = i :: jobs) :
    jobs.Nodup ∧ ∀ j, j ∈ jobs ↔ j ≠ i ∧ j ∈ s.jobs := by
  have hnodup := h.nodup
  rw [hjobs, List.nodup_cons] at hnodup
  refine ⟨hnodup.2, fun j => ?_⟩
  rw [hjobs, List.mem_cons]
  constructor
  · exact fun hj => ⟨fun hji => hnodup.1 (hji ▸ hj), .inr hj⟩
  · exact fun hj => hj.2.resolve_left hj.1

/-- A call that has the lock gets a connection, or waits for one. -/
theorem getConnection_cases {lent waiting : ℕ} (hp : Accounted (s.pool name) s.maxConnectionsPerHost lent waiting)
    (hi : s.calls[i]? = some ⟨name, phase⟩) :
    ∃ s', s.getConnection i name true = some s' ∧ s'.jobs = s.jobs ∧ (s'.pool name).pool = (s.pool name).pool.tail ∧
      (Moves s s' i name phase .sending ∧
          Accounted (s'.pool name) s.maxConnectionsPerHost (lent + 1) waiting ∨
        Moves s s' i name phase .blocked ∧
          Accounted (s'.pool name) s.maxConnectionsPerHost lent (waiting + 1)) := by
  obtain ⟨p', htail, ⟨hget, hp'⟩ | ⟨hget, hp'⟩⟩ := hp.get
  · obtain ⟨hm, heq⟩ := moves_after hi (.borrowed (), p')
    exact ⟨s.after i name (.borrowed (), p'), by rw [getConnection, if_pos rfl, hget]; rfl, rfl, by rwa [heq],
      .inl ⟨hm, by rwa [heq]⟩⟩
  · obtain ⟨hm, heq⟩ := moves_after hi (.waits, p')
    exact ⟨s.after i name (.waits, p'), by rw [getConnection, if_pos rfl, hget]; rfl, rfl, by rwa [heq],
      .inr ⟨hm, by rwa [heq]⟩⟩

/-! ## Steps -/

/-- How much there is to do for a call. -/
def left : Phase → ℕ
  | .ready => 5
  | .writing => 4
  | .blocked => 3
  | .sending => 2
  | .resumed => 1
  | .done => 0

/-- How much there is to do. -/
def leftOf : List Call → ℕ
  | [] => 0
  | c :: calls => left c.phase + leftOf calls

theorem leftOf_set {l : List Call} {c : Call} (hi : l[i]? = some c) (c' : Call) :
    leftOf (l.set i c') + left c.phase = leftOf l + left c'.phase := by
  induction l generalizing i with
  | nil => simp at hi
  | cons d l ih =>
    cases i with
    | zero =>
      cases hi
      simp only [List.set_cons_zero, leftOf]
      omega
    | succ i =>
      have hset := ih (i := i) hi
      simp only [List.set_cons_succ, leftOf]
      omega

theorem Moves.leftOf (hm : Moves s s' i name phase phase') (hlt : left phase' < left phase) :
    Calls.leftOf s'.calls < Calls.leftOf s.calls := by
  have hset := leftOf_set hm.get ⟨name, phase'⟩
  rw [← hm.calls] at hset
  dsimp only at hset
  omega

/-- A call that has got the lock, with a worker: it waits for a connection, or has one, and the worker is free. -/
theorem Inv.getConnection (h : s.Inv) (hi : s.calls[i]? = some ⟨name, phase⟩)
    (hphase : phase = .ready ∧ s.busy < s.workers ∨ phase = .writing) {jobs : List ℕ}
    (hjobs : ∀ j, j ∈ jobs ↔ j ≠ i ∧ j ∈ s.jobs) (hnodup : jobs.Nodup) :
    ∃ s' phase', Calls.getConnection { s with jobs } i name true = some s' ∧ s'.Inv ∧
      Moves s s' i name phase phase' ∧ (phase' = .sending ∨ phase' = .blocked) ∧ s'.jobs = jobs ∧
      (s'.pool name).pool = (s.pool name).pool.tail := by
  have hle := h.le
  have hlent : phase.lent = false := by rcases hphase with ⟨rfl, -⟩ | rfl <;> rfl
  have hne : phase ≠ .blocked := by rcases hphase with ⟨rfl, -⟩ | rfl <;> simp
  have hbusy : s.busy + 1 ≤ s.workers + phase.busy.toNat := by
    rcases hphase with ⟨rfl, hlt⟩ | rfl
    · exact hlt
    · exact Nat.succ_le_succ hle
  obtain ⟨s', hget, hjobs', htail, ⟨hm, hp⟩ | ⟨hm, hp⟩⟩ :=
    getConnection_cases (s := { s with jobs }) (i := i) (h.pools name) hi
  · replace hm : Moves s s' i name phase .sending := ⟨hi, hm.calls, hm.workers, hm.max, hm.pool⟩
    refine ⟨s', .sending, hget, h.moves hm (fun j => ?_) (hjobs' ▸ hnodup) ?_ (.inr ?_) ?_, hm, .inl rfl,
      hjobs', htail⟩
    · rw [hjobs', hjobs]
      simp [Phase.queued]
    · exact (Nat.le_succ _).trans hbusy
    · exact hbusy
    · intro lent waiting hlent' hwaiting
      rw [hlent] at hlent'
      rw [decide_eq_false hne] at hwaiting
      rw [show lent = _ from hlent', show waiting = _ from hwaiting]
      exact hp
  · replace hm : Moves s s' i name phase .blocked := ⟨hi, hm.calls, hm.workers, hm.max, hm.pool⟩
    refine ⟨s', .blocked, hget, h.moves hm (fun j => ?_) (hjobs' ▸ hnodup) hbusy (.inl ⟨hne, .inl rfl⟩) ?_, hm,
      .inr rfl, hjobs', htail⟩
    · rw [hjobs', hjobs]
      simp [Phase.queued]
    · intro lent waiting hlent' hwaiting
      rw [hlent] at hlent'
      rw [decide_eq_false hne] at hwaiting
      rw [show lent = _ from hlent', show waiting = _ from hwaiting]
      exact hp

/-- A worker that does not wait takes the next job. -/
theorem Inv.work (h : s.Inv) {jobs : List ℕ} (hjobs : s.jobs = i :: jobs) (hlt : s.busy < s.workers) (returns : Bool) :
    ∃ s' name phase phase', s.next (.work true returns) = some s' ∧ s'.Inv ∧ Moves s s' i name phase phase' ∧
      phase.queued ∧ (returns → left phase' < left phase) := by
  obtain ⟨hnodup, hmem⟩ := h.of_cons hjobs
  obtain ⟨⟨name, phase⟩, hi, hqueued⟩ := (h.jobs i).1 (hjobs ▸ List.mem_cons_self)
  have hnext : s.next (.work true returns) = run { s with jobs } i true returns := by
    rw [next, hjobs]
    exact if_pos hlt
  rw [hnext, run, hi]
  cases phase with
  | ready =>
    dsimp only
    split_ifs with hlock
    · have hm := moves_setPhase hi .writing jobs
      refine ⟨_, name, .ready, .writing, rfl, h.moves hm (fun j => ?_) hnodup hlt (.inl ⟨by simp, .inr hlock.2⟩) ?_, hm,
        rfl, fun _ => by decide⟩
      · refine (hmem j).trans ?_
        simp [Phase.queued]
      · intro lent waiting hlent hwaiting
        rw [show lent = _ from hlent, show waiting = _ from hwaiting]
        exact h.pools name
    · obtain ⟨s', phase', hget, hs', hm, hphase, -⟩ := h.getConnection hi (.inl ⟨rfl, hlt⟩) hmem hnodup
      refine ⟨s', name, .ready, phase', hget, hs', hm, rfl, fun _ => ?_⟩
      rcases hphase with rfl | rfl <;> decide
  | resumed =>
    dsimp only
    cases returns with
    | true =>
      obtain ⟨hm, hpool⟩ := moves_after (s := { s with jobs }) hi (.released, (s.pool name).put ())
      have hm' : Moves s (after { s with jobs } i name (.released, (s.pool name).put ())) i name .resumed .done :=
        ⟨hi, hm.calls, hm.workers, hm.max, hm.pool⟩
      have hinv : (after { s with jobs } i name (.released, (s.pool name).put ())).Inv := by
        refine h.moves hm' (fun j => ?_) hnodup h.le (.inr hlt) ?_
        · refine (hmem j).trans ?_
          simp [Phase.queued]
        · intro lent waiting hlent hwaiting
          rw [hpool]
          refine Accounted.put ?_
          rw [show lent + 1 = _ from hlent, show waiting = _ from hwaiting]
          exact h.pools name
      exact ⟨_, name, .resumed, .done, rfl, hinv, hm', rfl, fun _ => by decide⟩
    | false =>
      have hm := moves_setPhase hi .sending jobs
      refine ⟨_, name, .resumed, .sending, rfl, h.moves hm (fun j => ?_) hnodup h.le (.inr hlt) ?_, hm, rfl,
        fun hfalse => by cases hfalse⟩
      · refine (hmem j).trans ?_
        simp [Phase.queued]
      · intro lent waiting hlent hwaiting
        rw [Nat.add_right_cancel (show lent + 1 = _ + 1 from hlent), show waiting = _ from hwaiting]
        exact h.pools name
  | _ => cases hqueued

/-- Who waited for the lock gets it, when no one else has it. -/
theorem Inv.write (h : s.Inv) (hi : s.calls[i]? = some ⟨name, .writing⟩) (hzero : s.blocked = 0) :
    ∃ s' phase', s.next (.write i true) = some s' ∧ s'.Inv ∧ Moves s s' i name .writing phase' ∧
      left phase' < left .writing := by
  have hmem : ∀ j, j ∈ s.jobs ↔ j ≠ i ∧ j ∈ s.jobs := by
    refine fun j => ⟨fun hj => ⟨?_, hj⟩, And.right⟩
    rintro rfl
    obtain ⟨c, hc, hqueued⟩ := (h.jobs j).1 hj
    cases hi.symm.trans hc
    cases hqueued
  obtain ⟨s', phase', hget, hs', hm, hphase, -⟩ := h.getConnection hi (.inr rfl) hmem h.nodup
  refine ⟨s', phase', ?_, hs', hm, ?_⟩
  · rw [next, hi]
    exact (if_pos hzero).trans hget
  · rcases hphase with rfl | rfl <;> decide

/-- Who waited for a connection gets one. -/
theorem Inv.wake (h : s.Inv) (hi : s.calls[i]? = some ⟨name, .blocked⟩) (hpool : (s.pool name).pool ≠ []) :
    ∃ s', s.next (.wake i) = some s' ∧ s'.Inv ∧ Moves s s' i name .blocked .sending := by
  have hpos : 0 < s.countAt name (· = .blocked) :=
    List.countP_pos_iff.2 ⟨⟨name, .blocked⟩, List.mem_of_getElem? hi, by simp⟩
  have hp := h.pools name
  obtain ⟨waiting, hwaiting⟩ := Nat.exists_eq_add_of_lt hpos
  rw [hwaiting, Nat.zero_add] at hp
  obtain ⟨p', hwake, hp'⟩ := hp.wake hpool
  obtain ⟨hm, heq⟩ := moves_after hi (.borrowed (), p')
  refine ⟨s.after i name (.borrowed (), p'), ?_, h.moves hm (fun j => ?_) h.nodup ?_ (.inr ?_) ?_, hm⟩
  · rw [next, hi]
    dsimp only
    rw [hwake]
    rfl
  · constructor
    · refine fun hj => .inr ⟨?_, hj⟩
      rintro rfl
      obtain ⟨c, hc, hqueued⟩ := (h.jobs j).1 hj
      cases hi.symm.trans hc
      cases hqueued
    · rintro (⟨-, hqueued⟩ | hj)
      · cases hqueued
      · exact hj.2
  · exact h.le.trans (Nat.le_succ _)
  · exact Nat.lt_succ_of_le h.le
  · intro lent waiting' hlent hwaiting'
    rw [heq]
    have hsame : waiting' + 1 = s.countAt name (· = .blocked) := hwaiting'
    rw [show lent = _ from hlent, show waiting' = waiting by omega]
    exact hp'

/-- The operation of a call has completed. -/
theorem Inv.complete (h : s.Inv) (hi : s.calls[i]? = some ⟨name, .sending⟩) :
    ∃ s', s.next (.complete i) = some s' ∧ s'.Inv ∧ Moves s s' i name .sending .resumed := by
  have hm := moves_setPhase hi .resumed (s.jobs ++ [i])
  have hnot : i ∉ s.jobs := by
    intro hj
    obtain ⟨c, hc, hqueued⟩ := (h.jobs i).1 hj
    cases hi.symm.trans hc
    cases hqueued
  refine ⟨_, by rw [next, hi], h.moves hm (fun j => ?_) ?_ h.le ?_ ?_, hm⟩
  · change j ∈ s.jobs ++ [i] ↔ _
    rw [List.mem_append, List.mem_singleton]
    by_cases hji : j = i
    · simp [hji, Phase.queued]
    · simp [hji]
  · change (s.jobs ++ [i]).Nodup
    rw [List.nodup_append_comm, List.singleton_append, List.nodup_cons]
    exact ⟨hnot, h.nodup⟩
  · rcases Nat.eq_zero_or_pos s.blocked with hzero | hpos
    · exact .inr (h.free hzero)
    · exact .inl ⟨by simp, .inr hpos⟩
  · intro lent waiting hlent hwaiting
    rw [Nat.add_right_cancel (show lent + 1 = _ + 1 from hlent), show waiting = _ from hwaiting]
    exact h.pools name

theorem count_concat (jobs : List ℕ) (p : Phase → Bool) :
    count { s with calls := s.calls ++ [⟨name, .ready⟩], jobs } p = s.count p + (p .ready).toNat := by
  rw [count, count, List.countP_append]
  cases hp : p .ready <;> simp [hp]

theorem countAt_concat (jobs : List ℕ) {p : Phase → Bool} (hp : p .ready = false) (name' : Bytes) :
    countAt { s with calls := s.calls ++ [⟨name, .ready⟩], jobs } name' p = s.countAt name' p := by
  rw [countAt, countAt, List.countP_append]
  simp [hp]

/-- Another call. -/
theorem Inv.send (h : s.Inv) (name : Bytes) : ∃ s', s.next (.send name) = some s' ∧ s'.Inv ∧
    s'.unfinished = s.unfinished + 1 := by
  have hbusy : busy { s with calls := s.calls ++ [⟨name, .ready⟩], jobs := s.jobs ++ [s.calls.length] } = s.busy :=
    count_concat _ _
  have hnot : s.calls.length ∉ s.jobs := by
    intro hj
    obtain ⟨c, hc, -⟩ := (h.jobs _).1 hj
    exact lt_irrefl _ (List.getElem?_eq_some_iff.1 hc).1
  refine ⟨_, rfl, ⟨fun i => ?_, ?_, ?_, fun hzero => ?_, fun name' => ?_⟩, count_concat _ _⟩
  · rw [List.mem_append, List.mem_singleton]
    rcases Nat.lt_trichotomy i s.calls.length with hlt | rfl | hgt
    · rw [List.getElem?_append_left hlt, ← h.jobs i]
      exact or_iff_left hlt.ne
    · rw [List.getElem?_concat_length]
      simp [Phase.queued]
    · have hnone : (s.calls ++ [⟨name, .ready⟩])[i]? = none := by
        rw [List.getElem?_eq_none_iff, List.length_append]
        exact hgt
      rw [hnone, h.jobs i, List.getElem?_eq_none hgt.le]
      simp [hgt.ne']
  · rw [List.nodup_append_comm, List.singleton_append, List.nodup_cons]
    exact ⟨hnot, h.nodup⟩
  · rw [hbusy]
    exact h.le
  · rw [hbusy]
    exact h.free ((count_concat _ _).symm.trans hzero)
  · rw [countAt_concat _ rfl, countAt_concat _ (by simp)]
    exact h.pools name'

end Calls

end Cppnet.Http
