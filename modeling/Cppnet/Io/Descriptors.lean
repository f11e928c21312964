import Cppnet.Lib.Ledger
import Cppnet.Lib.Machine
import Mathlib.Logic.Function.Basic
import Mathlib.Order.Nat

/-!
# Descriptors

`socket.cpp`: the descriptors of sockets. A `socket` is made for a descriptor, and moved; its destructor closes the
descriptor, unless asking for an error finds one (`valid`). The kernel gives a descriptor that was closed to the next
file.

* `descriptors_owned`: in every run in which sockets are only destroyed, and not moved to themselves, each file that
  was opened for a socket is held by one socket, which has a descriptor of it, or it was closed, once, by the one that
  held it; or it is lost, open with no one to close it. None is lost if and only if every socket could be registered,
  and none was destroyed with an error pending.
-/

namespace Cppnet.Descriptors

open Lib Function

/-! ## The process -/

/-- An open file: which of those that were opened for sockets it is, if it is one of them, and whether asking for an
    error finds one. -/
structure File where
  id : Option ℕ
  error : Bool
  deriving DecidableEq

/-- What the descriptors stand for, and how many files have been opened for sockets. -/
structure Kernel where
  files : ℕ → Option File := fun _ => none
  opened : ℕ := 0

/-- `socket`: whether it has a scheduler, and its descriptor, if it is not `invalid_fd`. -/
structure Socket where
  scheduler : Bool
  fd : Option ℕ
  deriving DecidableEq

/-- What a socket is after it was moved from. -/
def Socket.moved : Socket := ⟨false, none⟩

namespace Kernel

variable {τ : Type*} (k : Kernel)

/-- Another file at a descriptor, or none. -/
def put (n : ℕ) (file : Option File) : Kernel := { k with files := update k.files n file }

/-- `valid`. A pending error is taken by asking for it. -/
def valid (s : Socket) : Bool × Kernel :=
  match s.fd with
  | none => (false, k)
  | some n =>
    if s.scheduler then
      match k.files n with
      | none => (false, k)
      | some file => (!file.error, k.put n (some { file with error := file.error && file.id.isNone }))
    else (false, k)

/-- What `::close` does, called by `x`. -/
def closing (x : τ) (n : ℕ) : List (Event τ) :=
  match k.files n with
  | none => []
  | some ⟨some i, _⟩ => [.closed i x]
  | some ⟨none, _⟩ => [.stray x]

/-- `close`, of a socket `x`. -/
def close (x : τ) (s : Socket) : List (Event τ) × Kernel :=
  match k.valid s, s.fd with
  | (true, k), some n => (k.closing x n, k.put n none)
  | (_, k), _ => ([], k)

/-- What happens to the file of a socket. -/
def passing (s : Socket) (event : ℕ → Event τ) : List (Event τ) :=
  match s.fd.bind k.files with
  | some ⟨some i, _⟩ => [event i]
  | _ => []

end Kernel

/-- The descriptors and the sockets that there are, with names in `τ`. -/
structure Process (τ : Type*) where
  kernel : Kernel := {}
  sockets : τ → Option Socket := fun _ => none

/-- What the program does, and the kernel: a file is opened for a socket, which may fail to be registered; sockets are
    moved, asked for errors, closed and destroyed; there is an error on a descriptor, or it is taken; other code opens
    and closes files of its own. -/
inductive Action (τ : Type*)
  | make (x : τ) (n : ℕ) (registers : Bool)
  | moveConstruct (x y : τ)
  | moveAssign (x y : τ)
  | valid (x : τ)
  | close (x : τ)
  | destroy (x : τ)
  | error (n : ℕ) (error : Bool)
  | openOther (n : ℕ) (error : Bool)
  | closeOther (n : ℕ)
  deriving DecidableEq

namespace Process

variable {τ : Type*} [DecidableEq τ]

/-- The constructor of a socket, for a new file. If it throws, no one has the descriptor. -/
def make (p : Process τ) (x : τ) (n : ℕ) (registers : Bool) : List (Event τ) × Process τ :=
  let kernel := { p.kernel.put n (some ⟨some p.kernel.opened, false⟩) with opened := p.kernel.opened + 1 }
  if registers then ([.made x], ⟨kernel, update p.sockets x (some ⟨true, some n⟩)⟩)
  else ([.dropped], { p with kernel })

/-- `std::exchange` of the members of `y`, which is `t`, to those of `x`. -/
def exchange (p : Process τ) (x y : τ) (t : Socket) : List (Event τ) × Process τ :=
  (p.kernel.passing t (.moved · y x), { p with sockets := update (update p.sockets y (some .moved)) x (some t) })

/-- `operator=` of `x`, which is `s`, which closes what it has whether there is an error or not. -/
def moveAssign (p : Process τ) (x y : τ) (s t : Socket) : List (Event τ) × Process τ :=
  match s.fd with
  | none => p.exchange x y t
  | some n =>
    let (es, p') := exchange { p with kernel := p.kernel.put n none } x y t
    (p.kernel.closing x n ++ es, p')

/-- The destructor. -/
def destroy (p : Process τ) (x : τ) (s : Socket) : List (Event τ) × Process τ :=
  let (es, kernel) := p.kernel.close x s
  (es ++ kernel.passing s (.lost · x), ⟨kernel, update p.sockets x none⟩)

/-- What happens to the files of the sockets. -/
def step (p : Process τ) : Action τ → Option (List (Event τ) × Process τ)
  | .make x n registers =>
    if (p.sockets x).isNone ∧ (p.kernel.files n).isNone then some (p.make x n registers) else none
  | .moveConstruct x y => if (p.sockets x).isNone then (p.sockets y).map (p.exchange x y) else none
  | .moveAssign x y => (p.sockets x).bind fun s => (p.sockets y).map (p.moveAssign x y s)
  | .valid x => (p.sockets x).map fun s => ([], { p with kernel := (p.kernel.valid s).2 })
  | .close x => (p.sockets x).map fun s => ((p.kernel.close x s).1, { p with kernel := (p.kernel.close x s).2 })
  | .destroy x => (p.sockets x).map (p.destroy x)
  | .error n error =>
    match p.kernel.files n with
    | some ⟨some i, _⟩ => some ([], { p with kernel := p.kernel.put n (some ⟨some i, error⟩) })
    | _ => none
  | .openOther n error =>
    if (p.kernel.files n).isNone then some ([], { p with kernel := p.kernel.put n (some ⟨none, error⟩) }) else none
  | .closeOther n =>
    match p.kernel.files n with
    | some ⟨none, _⟩ => some ([], { p with kernel := p.kernel.put n none })
    | _ => none

end Process

/-! ## Accounts -/

/-- A ledger says of the files `ids` at the descriptors, and of the descriptors `fds` of the sockets, what they are. -/
structure Accounts {τ : Type*} (l : Ledger τ) (ids : ℕ → Option ℕ) (fds : τ → Option ℕ) : Prop where
  lt : ∀ {n i}, ids n = some i → i < l.length
  open_iff : ∀ {i st}, l[i]? = some st → (st ≠ .closed ↔ ∃ n, ids n = some i)
  inj : ∀ {n m i}, ids n = some i → ids m = some i → n = m
  fd : ∀ {x n}, fds x = some n → ∃ i, ids n = some i ∧ l[i]? = some (.held x)
  held : ∀ {i x}, l[i]? = some (.held x) → ∃ n, fds x = some n ∧ ids n = some i

namespace Accounts

variable {τ : Type*} [DecidableEq τ] {l : Ledger τ} {ids : ℕ → Option ℕ} {fds : τ → Option ℕ} {x y : τ} {n i : ℕ}

omit [DecidableEq τ] in
theorem nil : Accounts ([] : Ledger τ) (fun _ => none) fun _ => none where
  lt h := by cases h
  open_iff h := by simp at h
  inj h := by cases h
  fd h := by cases h
  held h := by simp at h

omit [DecidableEq τ] in
/-- A socket without a descriptor has no file. -/
theorem not_held (h : Accounts l ids fds) (hx : fds x = none) : .held x ∉ l := fun hmem => by
  obtain ⟨i, hi⟩ := List.mem_iff_getElem?.1 hmem
  obtain ⟨n, hn, -⟩ := h.held hi
  rw [hx] at hn
  cases hn

omit [DecidableEq τ] in
/-- The file at the descriptor of a socket. -/
theorem held_of (h : Accounts l ids fds) (hx : fds x = some n) (hn : ids n = some i) : l[i]? = some (.held x) := by
  obtain ⟨j, hj, hheld⟩ := h.fd hx
  rw [hn] at hj
  cases hj
  exact hheld

/-- A new file, of a socket that has none, or of no one. -/
theorem concat (h : Accounts l ids fds) (hn : ids n = none) {st : Status τ} (hst : st ≠ .closed)
    (hfree : ∀ z, st = .held z → fds z = none) :
    Accounts (l ++ [st]) (update ids n (some l.length)) fun z => if st = .held z then some n else fds z := by
  have hget : ∀ {j : ℕ} {st' : Status τ}, (l ++ [st])[j]? = some st' ↔
      l[j]? = some st' ∨ j = l.length ∧ st = st' := by
    intro j st'
    rw [List.getElem?_append]
    split_ifs with hj
    · exact ⟨.inl, fun h => h.resolve_right fun h => hj.ne h.1⟩
    · rw [List.getElem?_eq_none (Nat.not_lt.1 hj)]
      rcases Nat.eq_or_lt_of_le (Nat.not_lt.1 hj) with rfl | hlt
      · simp
      · simp [hlt.ne', List.getElem?_eq_none (show [st].length ≤ j - l.length by simp; omega)]
  have hnew : ∀ {m j : ℕ}, ids m = some j → j ≠ l.length := fun hm => (h.lt hm).ne
  constructor
  · intro m j hm
    rw [List.length_append, List.length_singleton]
    rw [update_apply] at hm
    split_ifs at hm with hmn
    · cases hm
      exact Nat.lt_succ_self _
    · exact (h.lt hm).trans (Nat.lt_succ_self _)
  · intro j st' hj
    rcases hget.1 hj with hj | ⟨rfl, rfl⟩
    · rw [h.open_iff hj]
      have hlt := (List.getElem?_eq_some_iff.1 hj).1
      refine exists_congr fun m => ?_
      rw [update_apply]
      split_ifs with hmn
      · rw [hmn, hn]
        simp [hlt.ne']
      · rfl
    · exact iff_of_true hst ⟨n, update_self ..⟩
  · intro m m' j hm hm'
    rw [update_apply] at hm hm'
    split_ifs at hm hm' with hmn hmn' hmn'
    · rw [hmn, hmn']
    · cases hm
      exact absurd rfl (hnew hm')
    · cases hm'
      exact absurd rfl (hnew hm)
    · exact h.inj hm hm'
  · intro z m hz
    split_ifs at hz with hst'
    · cases hz
      exact ⟨l.length, update_self .., hget.2 (.inr ⟨rfl, hst'⟩)⟩
    · obtain ⟨j, hj, hheld⟩ := h.fd hz
      have hmn : m ≠ n := fun heq => by
        rw [heq, hn] at hj
        cases hj
      exact ⟨j, (update_of_ne hmn ..).trans hj, hget.2 (.inl hheld)⟩
  · intro j z hj
    rcases hget.1 hj with hj | ⟨rfl, hst'⟩
    · obtain ⟨m, hz, hm⟩ := h.held hj
      have hmn : m ≠ n := fun heq => by
        rw [heq, hn] at hm
        cases hm
      have hne : st ≠ .held z := fun heq => by
        rw [hfree z heq] at hz
        cases hz
      exact ⟨m, (if_neg hne).trans hz, (update_of_ne hmn ..).trans hm⟩
    · exact ⟨n, if_pos hst', update_self ..⟩

/-- The file of `x` gets another status: it is passed on, closed or lost. -/
theorem set (h : Accounts l ids fds) (hx : fds x = some n) (hn : ids n = some i) {st : Status τ}
    (hfree : ∀ z, st = .held z → fds z = none) :
    Accounts (l.set i st) (if st = .closed then update ids n none else ids)
      fun z => if st = .held z then some n else if z = x then none else fds z := by
  have hi := h.held_of hx hn
  have hlt := (List.getElem?_eq_some_iff.1 hi).1
  have hself : (l.set i st)[i]? = some st := List.getElem?_set_self hlt
  have hother : ∀ {j : ℕ}, i ≠ j → (l.set i st)[j]? = l[j]? := fun hij => List.getElem?_set_ne hij
  -- The files that stay.
  have hids : ∀ {m j : ℕ}, (if st = .closed then update ids n none else ids) m = some j ↔
      ids m = some j ∧ ¬(st = .closed ∧ i = j) := by
    intro m j
    split_ifs with hst
    · rw [update_apply]
      split_ifs with hmn
      · rw [hmn, hn]
        simp [hst]
      · refine ⟨fun hm => ⟨hm, fun hij => hmn (h.inj hm (hij.2 ▸ hn))⟩, And.left⟩
    · simp [hst]
  constructor
  · intro m j hm
    rw [List.length_set]
    exact h.lt (hids.1 hm).1
  · intro j st' hj
    by_cases hij : i = j
    · subst hij
      rw [hself] at hj
      cases hj
      constructor
      · exact fun hst => ⟨n, hids.2 ⟨hn, fun h => hst h.1⟩⟩
      · rintro ⟨m, hm⟩ hst
        exact (hids.1 hm).2 ⟨hst, rfl⟩
    · rw [hother hij] at hj
      rw [h.open_iff hj]
      exact exists_congr fun m => ⟨fun hm => hids.2 ⟨hm, fun h => hij h.2⟩, fun hm => (hids.1 hm).1⟩
  · intro m m' j hm hm'
    exact h.inj (hids.1 hm).1 (hids.1 hm').1
  · intro z m hz
    split_ifs at hz with hst hzx
    · cases hz
      exact ⟨i, hids.2 ⟨hn, fun h => by cases hst.symm.trans h.1⟩, hst ▸ hself⟩
    · obtain ⟨j, hj, hheld⟩ := h.fd hz
      have hij : i ≠ j := fun hij => by
        rw [← hij, hi] at hheld
        cases hheld
        exact hzx rfl
      exact ⟨j, hids.2 ⟨hj, fun h => hij h.2⟩, (hother hij).trans hheld⟩
  · intro j z hj
    by_cases hij : i = j
    · subst hij
      rw [hself] at hj
      cases hj
      exact ⟨n, if_pos rfl, hids.2 ⟨hn, fun h => by cases h.1⟩⟩
    · rw [hother hij] at hj
      obtain ⟨m, hz, hm⟩ := h.held hj
      have hst : st ≠ .held z := fun heq => by
        rw [hfree z heq] at hz
        cases hz
      have hzx : z ≠ x := fun heq => by
        rw [heq, hx] at hz
        cases hz
        exact hij (Option.some.inj (hn.symm.trans hm))
      exact ⟨m, by rw [if_neg hst, if_neg hzx, hz], hids.2 ⟨hm, fun h => hij h.2⟩⟩

end Accounts

/-! ## What the process does -/

/-- The files of sockets at the descriptors. -/
def Kernel.ids (k : Kernel) (n : ℕ) : Option ℕ := (k.files n).bind File.id

namespace Kernel

variable {τ : Type*} {k : Kernel} {s : Socket} {x : τ} {n i : ℕ} {e : Bool}

theorem ids_put (k : Kernel) (n : ℕ) (file : Option File) :
    (k.put n file).ids = update k.ids n (file.bind File.id) := by
  ext m : 1
  change (update k.files n file m).bind File.id = _
  rw [update_apply, update_apply]
  split_ifs
  · rfl
  · rfl

theorem exists_file (h : k.ids n = some i) : ∃ e, k.files n = some ⟨some i, e⟩ := by
  obtain ⟨⟨id, e⟩, hfile, hid⟩ := Option.bind_eq_some_iff.1 h
  cases hid
  exact ⟨e, hfile⟩

/-- A file is another one with the same number, or none of a socket. -/
theorem ids_put_self {file : Option File} (h : k.ids n = file.bind File.id) : (k.put n file).ids = k.ids := by
  rw [ids_put]
  exact update_eq_self_iff.2 h.symm

theorem valid_snd (k : Kernel) (s : Socket) : (k.valid s).2.ids = k.ids ∧ (k.valid s).2.opened = k.opened := by
  rw [valid]
  rcases s.fd with _ | n
  · exact ⟨rfl, rfl⟩
  dsimp only
  split_ifs
  · rcases hfile : k.files n with _ | file
    · exact ⟨rfl, rfl⟩
    · exact ⟨ids_put_self (by rw [ids, hfile]; rfl), rfl⟩
  · exact ⟨rfl, rfl⟩

/-- `valid`, of a socket with a file. -/
theorem valid_of_file (hscheduler : s.scheduler = true) (hfd : s.fd = some n)
    (hfile : k.files n = some ⟨some i, e⟩) : k.valid s = (!e, k.put n (some ⟨some i, false⟩)) := by
  rw [valid, hfd]
  dsimp only
  rw [if_pos hscheduler, hfile]
  simp

theorem close_of_none (hfd : s.fd = none) : k.close x s = ([], k) := by
  rw [close, valid, hfd]

/-- `close`, of a socket with a file. -/
theorem close_of_file (hscheduler : s.scheduler = true) (hfd : s.fd = some n)
    (hfile : k.files n = some ⟨some i, e⟩) :
    k.close x s = if e then ([], k.put n (some ⟨some i, false⟩))
      else ([.closed i x], (k.put n (some ⟨some i, false⟩)).put n none) := by
  rw [close, valid_of_file hscheduler hfd hfile, hfd]
  cases e with
  | false =>
    have hput : (k.put n (some ⟨some i, false⟩)).files n = some ⟨some i, false⟩ := update_self ..
    simp [closing, hput]
  | true => simp

theorem passing_of_file (hfd : s.fd = some n) (hfile : k.files n = some ⟨some i, e⟩) (event : ℕ → Event τ) :
    k.passing s event = [event i] := by
  rw [passing, hfd, Option.bind_some, hfile]

theorem closing_of_file (hfile : k.files n = some ⟨some i, e⟩) : k.closing x n = [.closed i x] := by
  rw [closing, hfile]

end Kernel

namespace Process

variable {τ : Type*} {p p' : Process τ} {l : Ledger τ} {x y : τ} {s t : Socket} {n i : ℕ} {es : List (Event τ)}

/-- The descriptors of the sockets. -/
def fds (p : Process τ) (x : τ) : Option ℕ := (p.sockets x).bind Socket.fd

/-- A ledger says what the files and the sockets of a process are. -/
structure Accounted (l : Ledger τ) (p : Process τ) : Prop where
  opened : p.kernel.opened = l.length
  accounts : Accounts l p.kernel.ids p.fds
  scheduler : ∀ {x s}, p.sockets x = some s → s.fd.isSome → s.scheduler = true

theorem accounted_nil : Accounted [] ({} : Process τ) where
  opened := rfl
  accounts := .nil
  scheduler h := by cases h

variable [DecidableEq τ]

omit [DecidableEq τ] in
/-- Errors come and go. -/
theorem Accounted.congr {kernel : Kernel} (h : Accounted l p) (hids : kernel.ids = p.kernel.ids)
    (hopened : kernel.opened = p.kernel.opened) : Accounted l { p with kernel } where
  opened := hopened.trans h.opened
  accounts := by
    rw [hids]
    exact h.accounts
  scheduler := h.scheduler

theorem fds_update (p : Process τ) (kernel : Kernel) (x : τ) (v : Option Socket) :
    fds ⟨kernel, update p.sockets x v⟩ = update p.fds x (v.bind Socket.fd) := by
  ext z : 1
  change (update p.sockets x v z).bind Socket.fd = _
  rw [update_apply, update_apply]
  split_ifs
  · rfl
  · rfl

omit [DecidableEq τ] in
/-- The file of a socket with a descriptor. -/
theorem Accounted.exists_file (h : Accounted l p) (hx : p.sockets x = some s) (hfd : s.fd = some n) :
    s.scheduler = true ∧ p.fds x = some n ∧ ∃ i e, p.kernel.files n = some ⟨some i, e⟩ ∧ p.kernel.ids n = some i ∧
      l[i]? = some (.held x) := by
  have hx' : p.fds x = some n := Option.bind_eq_some_iff.2 ⟨s, hx, hfd⟩
  obtain ⟨i, hi, hheld⟩ := h.accounts.fd hx'
  obtain ⟨e, hfile⟩ := Kernel.exists_file hi
  exact ⟨h.scheduler hx (by rw [hfd]; rfl), hx', i, e, hfile, hi, hheld⟩

/-- The file of `x` is passed on, closed or lost. -/
theorem Accounted.set (h : Accounted l p) (hx : p.fds x = some n) (hn : p.kernel.ids n = some i) {st : Status τ}
    (hfree : ∀ z, st = .held z → p.fds z = none) {p' : Process τ}
    (hids : p'.kernel.ids = if st = .closed then update p.kernel.ids n none else p.kernel.ids)
    (hopened : p'.kernel.opened = p.kernel.opened)
    (hfds : ∀ z, p'.fds z = if st = .held z then some n else if z = x then none else p.fds z)
    (hscheduler : ∀ {z s}, p'.sockets z = some s → s.fd.isSome → s.scheduler = true) :
    Accounted (l.set i st) p' where
  opened := by rw [hopened, h.opened, List.length_set]
  accounts := by
    rw [hids, funext hfds]
    exact h.accounts.set hx hn hfree
  scheduler := hscheduler

theorem scheduler_update (h : Accounted l p) {v : Option Socket}
    (hv : ∀ s, v = some s → s.fd.isSome → s.scheduler = true) {z : τ} {s : Socket}
    (hz : update p.sockets x v z = some s) : s.fd.isSome → s.scheduler = true := by
  rw [update_apply] at hz
  split_ifs at hz with hzx
  · exact hv s hz
  · exact h.scheduler hz

/-- The constructor. -/
theorem Accounted.make (h : Accounted l p) (hx : p.sockets x = none) (hn : p.kernel.files n = none)
    (registers : Bool) : ∃ l', l.take (p.make x n registers).1 = some l' ∧ Accounted l' (p.make x n registers).2 := by
  have hfds : p.fds x = none := by rw [fds, hx, Option.bind_none]
  have hids : p.kernel.ids n = none := by rw [Kernel.ids, hn, Option.bind_none]
  have hput : (p.kernel.put n (some ⟨some p.kernel.opened, false⟩)).ids = update p.kernel.ids n (some l.length) := by
    rw [Kernel.ids_put, h.opened]
    rfl
  cases registers with
  | true =>
    have hstep : l.step (.made x) = some (l ++ [.held x]) := if_neg (h.accounts.not_held hfds)
    refine ⟨l ++ [.held x], Ledger.take_singleton hstep, ?_, ?_, ?_⟩
    · rw [List.length_append, ← h.opened]
      rfl
    · have hfds' : (p.make x n true).2.fds = fun z => if .held x = (.held z : Status τ) then some n else p.fds z := by
        ext z : 1
        refine (congrFun (fds_update p _ x _) z).trans ?_
        rw [update_apply]
        simp [eq_comm]
      rw [hfds']
      change Accounts _ (p.kernel.put n _).ids _
      rw [hput]
      exact h.accounts.concat hids (fun h => by cases h) fun z hz => by cases hz; exact hfds
    · exact scheduler_update h fun s hs _ => by cases hs; rfl
  | false =>
    refine ⟨l ++ [.lost], Ledger.take_singleton rfl, ?_, ?_, h.scheduler⟩
    · rw [List.length_append, ← h.opened]
      rfl
    · change Accounts _ (p.kernel.put n _).ids p.fds
      rw [hput]
      have hlost : (.lost : Status τ) ≠ .closed := fun h => by cases h
      simpa using h.accounts.concat hids hlost fun z hz => by cases hz

/-- A socket gets the file of another one, and has none of its own. -/
theorem Accounted.exchange (h : Accounted l p) (hx : p.fds x = none) (hy : p.sockets y = some t) :
    ∃ l', l.take (p.exchange x y t).1 = some l' ∧ Accounted l' (p.exchange x y t).2 := by
  have hfds' : ∀ z, (p.exchange x y t).2.fds z = if z = x then t.fd else if z = y then none else p.fds z := by
    intro z
    change (update (update p.sockets y (some .moved)) x (some t) z).bind Socket.fd = _
    rw [update_apply, update_apply]
    split_ifs
    · rfl
    · rfl
    · rfl
  have hscheduler : ∀ {z s}, (p.exchange x y t).2.sockets z = some s → s.fd.isSome → s.scheduler = true := by
    intro z s hz
    change update (update p.sockets y (some .moved)) x (some t) z = some s at hz
    rw [update_apply, update_apply] at hz
    split_ifs at hz
    · cases hz
      exact h.scheduler hy
    · cases hz
      exact fun h => by cases h
    · exact h.scheduler hz
  rcases hfd : t.fd with _ | n
  · have hevents : (p.exchange x y t).1 = [] := by
      change p.kernel.passing t _ = []
      rw [Kernel.passing, hfd, Option.bind_none]
    refine ⟨l, by rw [hevents]; rfl, h.opened, ?_, hscheduler⟩
    have hy' : p.fds y = none := by rw [fds, hy, Option.bind_some, hfd]
    have hsame : (p.exchange x y t).2.fds = p.fds := by
      ext z : 1
      rw [hfds', hfd]
      split_ifs with hzx hzy
      · rw [hzx, hx]
      · rw [hzy, hy']
      · rfl
    rw [hsame]
    exact h.accounts
  · obtain ⟨-, hy', i, e, hfile, hids, hheld⟩ := h.exists_file hy hfd
    have hevents : (p.exchange x y t).1 = [.moved i y x] := Kernel.passing_of_file hfd hfile _
    have hstep : l.step (.moved i y x) = some (l.set i (.held x)) := if_pos ⟨hheld, h.accounts.not_held hx⟩
    refine ⟨l.set i (.held x), by rw [hevents]; exact Ledger.take_singleton hstep, ?_⟩
    refine h.set hy' hids (fun z hz => by cases hz; exact hx) ?_ rfl ?_ hscheduler
    · rw [if_neg fun h => by cases h]
      rfl
    · intro z
      rw [hfds', hfd]
      simp [eq_comm]

/-- The file of `x` is closed, and `x` has none, or is not there any more. -/
theorem Accounted.release (h : Accounted l p) (hx : p.fds x = some n) (hn : p.kernel.ids n = some i)
    {v : Option Socket} (hv : v.bind Socket.fd = none) {kernel : Kernel}
    (hids : kernel.ids = update p.kernel.ids n none) (hopened : kernel.opened = p.kernel.opened) :
    Accounted (l.set i .closed) ⟨kernel, update p.sockets x v⟩ := by
  refine h.set hx hn (fun z hz => by cases hz) ?_ hopened ?_ ?_
  · rw [if_pos rfl, hids]
  · intro z
    rw [fds_update, update_apply, hv]
    simp
  · refine scheduler_update h fun s hs hfd => ?_
    rw [hs, Option.bind_some] at hv
    rw [hv] at hfd
    cases hfd

/-- What `x` had is closed before it gets the file of another socket. -/
theorem Accounted.moveAssign (h : Accounted l p) (hxy : x ≠ y) (hx : p.sockets x = some s)
    (hy : p.sockets y = some t) :
    ∃ l', l.take (p.moveAssign x y s t).1 = some l' ∧ Accounted l' (p.moveAssign x y s t).2 := by
  rcases hfd : s.fd with _ | n
  · have hx' : p.fds x = none := by rw [fds, hx, Option.bind_some, hfd]
    rw [Process.moveAssign, hfd]
    exact h.exchange hx' hy
  · obtain ⟨-, hx', i, e, hfile, hids, hheld⟩ := h.exists_file hx hfd
    have hput : (p.kernel.put n none).ids = update p.kernel.ids n none := Kernel.ids_put ..
    -- In between, `x` has nothing.
    have hrelease : Accounted (l.set i .closed) ⟨p.kernel.put n none, update p.sockets x (some .moved)⟩ :=
      h.release hx' hids rfl hput rfl
    obtain ⟨l', htake, h'⟩ := hrelease.exchange (x := x) (y := y) (t := t) (by rw [fds_update]; exact update_self ..)
      ((update_of_ne hxy.symm ..).trans hy)
    have hstep : l.step (.closed i x) = some (l.set i .closed) := if_pos hheld
    have hsockets : update (update (update p.sockets x (some .moved)) y (some .moved)) x (some t) =
        update (update p.sockets y (some .moved)) x (some t) := by
      rw [update_comm hxy, update_idem]
    rw [Process.moveAssign, hfd]
    refine ⟨l', ?_, ?_⟩
    · dsimp only
      rw [Kernel.closing_of_file hfile]
      exact Ledger.take_append_eq_some (Ledger.take_singleton hstep) htake
    · rw [Process.exchange, hsockets] at h'
      exact h'

theorem destroy_of_none (p : Process τ) (x : τ) (hfd : s.fd = none) :
    p.destroy x s = ([], { p with sockets := update p.sockets x none }) := by
  rw [destroy, Kernel.close_of_none hfd]
  dsimp only
  rw [Kernel.passing, hfd]
  rfl

/-- The destructor of a socket with a file: an error keeps it from closing the file. -/
theorem destroy_of_file {e : Bool} (x : τ) (hscheduler : s.scheduler = true) (hfd : s.fd = some n)
    (hfile : p.kernel.files n = some ⟨some i, e⟩) :
    p.destroy x s = if e then ([.lost i x], ⟨p.kernel.put n (some ⟨some i, false⟩), update p.sockets x none⟩)
      else ([.closed i x], ⟨(p.kernel.put n (some ⟨some i, false⟩)).put n none, update p.sockets x none⟩) := by
  rw [destroy, Kernel.close_of_file hscheduler hfd hfile]
  cases e with
  | false =>
    have hnone : ((p.kernel.put n (some ⟨some i, false⟩)).put n none).files n = none := update_self ..
    simp [Kernel.passing, hfd, hnone]
  | true =>
    have hfile' : (p.kernel.put n (some ⟨some i, false⟩)).files n = some ⟨some i, false⟩ := update_self ..
    simp [Kernel.passing_of_file hfd hfile']

/-- The destructor closes the file, or loses it. -/
theorem Accounted.destroy (h : Accounted l p) (hx : p.sockets x = some s) :
    ∃ l', l.take (p.destroy x s).1 = some l' ∧ Accounted l' (p.destroy x s).2 := by
  rcases hfd : s.fd with _ | n
  · have hsame : fds ⟨p.kernel, update p.sockets x none⟩ = p.fds := by
      rw [fds_update]
      refine update_eq_self_iff.2 ?_
      rw [fds, hx, Option.bind_some, hfd]
      rfl
    rw [destroy_of_none p x hfd]
    refine ⟨l, rfl, h.opened, ?_, scheduler_update h fun s hs => by cases hs⟩
    rw [hsame]
    exact h.accounts
  · obtain ⟨hscheduler, hx', i, e, hfile, hids, hheld⟩ := h.exists_file hx hfd
    have hput : (p.kernel.put n (some ⟨some i, false⟩)).ids = p.kernel.ids := Kernel.ids_put_self hids
    rw [destroy_of_file x hscheduler hfd hfile]
    cases e with
    | false =>
      have hstep : l.step (.closed i x) = some (l.set i .closed) := if_pos hheld
      refine ⟨l.set i .closed, Ledger.take_singleton hstep, h.release hx' hids rfl ?_ rfl⟩
      rw [Kernel.ids_put, hput]
      rfl
    | true =>
      have hstep : l.step (.lost i x) = some (l.set i .lost) := if_pos hheld
      refine ⟨l.set i .lost, Ledger.take_singleton hstep, h.set hx' hids (fun z hz => by cases hz) hput rfl ?_ ?_⟩
      · intro z
        refine (congrFun (fds_update p _ x none) z).trans ?_
        rw [update_apply]
        simp
      · exact scheduler_update h fun s hs => by cases hs

/-! ## Runs -/

end Process

/-- Sockets are neither closed before they are destroyed, nor moved to themselves. -/
def Action.Owning {τ : Type*} : Action τ → Prop
  | .moveAssign x y => x ≠ y
  | .close _ => False
  | _ => True

namespace Process

variable {τ : Type*} [DecidableEq τ] {p p' : Process τ} {l : Ledger τ}

/-- One step. -/
theorem Accounted.step (h : Accounted l p) {a : Action τ} (ha : a.Owning) {es : List (Event τ)}
    (hstep : p.step a = some (es, p')) : ∃ l', l.take es = some l' ∧ Accounted l' p' := by
  cases a with
  | make x n registers =>
    obtain ⟨⟨hx, hn⟩, hmake⟩ := Option.ite_none_right_eq_some.1 hstep
    have hmade := h.make (Option.isNone_iff_eq_none.1 hx) (Option.isNone_iff_eq_none.1 hn) registers
    rwa [Option.some.inj hmake] at hmade
  | moveConstruct x y =>
    obtain ⟨hx, hmove⟩ := Option.ite_none_right_eq_some.1 hstep
    obtain ⟨t, hy, hmove⟩ := Option.map_eq_some_iff.1 hmove
    have hmoved := h.exchange (by rw [fds, Option.isNone_iff_eq_none.1 hx, Option.bind_none]) hy
    rwa [hmove] at hmoved
  | moveAssign x y =>
    obtain ⟨s, hx, hmove⟩ := Option.bind_eq_some_iff.1 hstep
    obtain ⟨t, hy, hmove⟩ := Option.map_eq_some_iff.1 hmove
    have hmoved := h.moveAssign ha hx hy
    rwa [hmove] at hmoved
  | valid x =>
    obtain ⟨s, hx, hvalid⟩ := Option.map_eq_some_iff.1 hstep
    cases hvalid
    exact ⟨l, rfl, h.congr (Kernel.valid_snd _ s).1 (Kernel.valid_snd _ s).2⟩
  | close x => exact ha.elim
  | destroy x =>
    obtain ⟨s, hx, hdestroy⟩ := Option.map_eq_some_iff.1 hstep
    have hdestroyed := h.destroy hx
    rwa [hdestroy] at hdestroyed
  | error n error =>
    rw [Process.step] at hstep
    split at hstep
    · next i e hfile =>
      cases hstep
      exact ⟨l, rfl, h.congr (Kernel.ids_put_self (by rw [Kernel.ids, hfile]; rfl)) rfl⟩
    · cases hstep
  | openOther n error =>
    obtain ⟨hn, hopen⟩ := Option.ite_none_right_eq_some.1 hstep
    cases hopen
    refine ⟨l, rfl, h.congr (Kernel.ids_put_self ?_) rfl⟩
    rw [Kernel.ids, Option.isNone_iff_eq_none.1 hn]
    rfl
  | closeOther n =>
    rw [Process.step] at hstep
    split at hstep
    · next e hfile =>
      cases hstep
      exact ⟨l, rfl, h.congr (Kernel.ids_put_self (by rw [Kernel.ids, hfile]; rfl)) rfl⟩
    · cases hstep

/-- Nothing is lost by the step: the new socket is registered, the one that is destroyed has no error. -/
def Clean (p : Process τ) : Action τ → Prop
  | .make _ _ registers => registers = true
  | .destroy x => ∀ n ∈ p.fds x, ∀ file ∈ p.kernel.files n, file.error = false
  | _ => True

omit [DecidableEq τ] in
theorem any_loses_passing_moved (k : Kernel) (t : Socket) (y x : τ) :
    (k.passing t (.moved · y x)).any Ledger.loses = false := by
  rw [Kernel.passing]
  split <;> rfl

omit [DecidableEq τ] in
theorem any_loses_closing (k : Kernel) (x : τ) (n : ℕ) : (k.closing x n).any Ledger.loses = false := by
  rw [Kernel.closing]
  split <;> rfl

/-- What is lost by a step. -/
theorem any_loses_iff (h : Accounted l p) {a : Action τ} (ha : a.Owning) {es : List (Event τ)}
    (hstep : p.step a = some (es, p')) : es.any Ledger.loses ↔ ¬p.Clean a := by
  have hexchange : ∀ (p : Process τ) (x y : τ) (t : Socket), (p.exchange x y t).1.any Ledger.loses = false :=
    fun p x y t => any_loses_passing_moved p.kernel t y x
  cases a with
  | make x n registers =>
    obtain ⟨-, hmake⟩ := Option.ite_none_right_eq_some.1 hstep
    obtain rfl : (p.make x n registers).1 = es := congrArg Prod.fst (Option.some.inj hmake)
    cases registers <;> simp [make, Ledger.loses, Clean]
  | moveConstruct x y =>
    obtain ⟨-, hmove⟩ := Option.ite_none_right_eq_some.1 hstep
    obtain ⟨t, -, hmove⟩ := Option.map_eq_some_iff.1 hmove
    obtain rfl : (p.exchange x y t).1 = es := congrArg Prod.fst hmove
    simp [hexchange, Clean]
  | moveAssign x y =>
    obtain ⟨s, -, hmove⟩ := Option.bind_eq_some_iff.1 hstep
    obtain ⟨t, -, hmove⟩ := Option.map_eq_some_iff.1 hmove
    obtain rfl : (p.moveAssign x y s t).1 = es := congrArg Prod.fst hmove
    rw [moveAssign]
    rcases s.fd with _ | n
    · simp [hexchange, Clean]
    · simp [hexchange, any_loses_closing, Clean]
  | valid x =>
    obtain ⟨s, -, hvalid⟩ := Option.map_eq_some_iff.1 hstep
    cases hvalid
    simp [Clean]
  | close x => exact ha.elim
  | destroy x =>
    obtain ⟨s, hx, hdestroy⟩ := Option.map_eq_some_iff.1 hstep
    rcases hfd : s.fd with _ | n
    · have hx' : p.fds x = none := by rw [fds, hx, Option.bind_some, hfd]
      rw [destroy_of_none p x hfd] at hdestroy
      cases hdestroy
      simp [Clean, hx']
    · obtain ⟨hscheduler, hx', i, e, hfile, -, -⟩ := h.exists_file hx hfd
      rw [destroy_of_file x hscheduler hfd hfile] at hdestroy
      cases e <;> cases hdestroy <;> simp [Ledger.loses, Clean, hx', hfile]
  | error n error =>
    rw [Process.step] at hstep
    split at hstep <;> cases hstep
    simp [Clean]
  | openOther n error =>
    obtain ⟨-, hopen⟩ := Option.ite_none_right_eq_some.1 hstep
    cases hopen
    simp [Clean]
  | closeOther n =>
    rw [Process.step] at hstep
    split at hstep <;> cases hstep
    simp [Clean]

/-- Runs. -/
theorem Accounted.runs (h : Accounted l p) {as : List (Action τ)} (has : ∀ a ∈ as, a.Owning)
    {os : List (List (Event τ))} (hexec : exec Process.step p as = some (os, p')) :
    ∃ l', l.take os.flatten = some l' ∧ Accounted l' p' ∧
      (os.flatten.any Ledger.loses ↔ ¬Along Process.step Clean p as) := by
  induction as generalizing l p os with
  | nil =>
    cases hexec
    exact ⟨l, rfl, h, by simp [Along]⟩
  | cons a as ih =>
    obtain ⟨es, p₁, os, hstep, hrest, rfl⟩ := exec_cons_eq_some.1 hexec
    rw [List.forall_mem_cons] at has
    obtain ⟨l₁, htake, h₁⟩ := h.step has.1 hstep
    obtain ⟨l', htake', h', hloses⟩ := ih h₁ has.2 hrest
    refine ⟨l', Ledger.take_append_eq_some htake htake', h', ?_⟩
    rw [List.flatten_cons, List.any_append, Bool.or_eq_true, any_loses_iff h has.1 hstep, hloses, Along,
      ← not_and_or]
    refine not_congr (and_congr_right fun _ => ⟨fun hC es' p₂ hstep' => ?_, fun hC => hC es p₁ hstep⟩)
    cases hstep.symm.trans hstep'
    exact hC

/-- Every file is held by one socket, which has a descriptor of it, until that socket closes it, once, or loses it. -/
theorem descriptors_owned {as : List (Action τ)} (has : ∀ a ∈ as, a.Owning) {os : List (List (Event τ))}
    (hexec : exec step {} as = some (os, p)) :
    ∃ l, Ledger.take [] os.flatten = some l ∧ Accounted l p ∧
      (∀ i, os.flatten.countP (Ledger.closes i) = if l[i]? = some .closed then 1 else 0) ∧
      (.lost ∉ l ↔ Along step Clean {} as) := by
  obtain ⟨l, htake, h, hloses⟩ := accounted_nil.runs has hexec
  refine ⟨l, htake, h, fun i => ?_, ?_⟩
  · have hcount := Ledger.count_closed (i := i) htake
    simpa using hcount.symm
  · rw [Ledger.lost_mem_iff htake, hloses]
    simp

/-- A socket closes its file when it gets another one, and loses that one to an error. -/
theorem descriptors_owned_two : ∃ os p,
    exec step ({} : Process ℕ) [.make 0 3 true, .make 1 4 true, .moveAssign 0 1, .destroy 1, .error 4 true,
      .destroy 0] = some (os, p) ∧
    ∃ l, Ledger.take [] os.flatten = some l ∧ Accounted l p ∧
      (∀ i, os.flatten.countP (Ledger.closes i) = if l[i]? = some .closed then 1 else 0) ∧
      (.lost ∉ l ↔ Along step Clean ({} : Process ℕ) [.make 0 3 true, .make 1 4 true, .moveAssign 0 1, .destroy 1,
        .error 4 true, .destroy 0]) := by
  refine ⟨_, _, rfl, ?_⟩
  exact descriptors_owned (by simp [Action.Owning]) rfl

/-- A socket that was closed, and is destroyed, closes the file of another one that has got its descriptor. -/
example : (exec step ({} : Process ℕ) [.make 0 3 true, .close 0, .make 1 3 true, .destroy 0]).map Prod.fst =
    some [[.made 0], [.closed 0 0], [.made 1], [.closed 1 0]] := rfl

end Process

end Cppnet.Descriptors
