import Mathlib.Data.List.Basic

/-!
# The SIEVE algorithm

Which of the keys of a full cache has to go. The keys are in a queue, in the order they came. A *hand* goes
over them, from the oldest to the newest, and from there to the oldest again: from where it stopped the
last time on, it passes the keys that were hit since they came, or since it passed them the last time, and
stops at the first one that was not.

The log says what happened to which key, the latest first: a key was *visited* if the latest was a hit.
-/

namespace Lib

/-- What happens to a key of a cache. -/
inductive Sieve.Event (κ : Type*)
  | inserted (k : κ)
  | hit (k : κ)
  | passed (k : κ)
  deriving DecidableEq

/-- The key it happens to. -/
def Sieve.Event.key {κ : Type*} : Sieve.Event κ → κ
  | inserted k => k
  | hit k => k
  | passed k => k

/-- A key was visited: the latest of what happened to it was a hit. -/
def Sieve.latestHit {κ : Type*} [DecidableEq κ] (log : List (Sieve.Event κ)) (k : κ) : Bool :=
  match log.find? fun e => e.key = k with
  | some (.hit _) => true
  | _ => false

/-- The keys, the oldest one first; the one where the hand is, if it does not start over; and the log. -/
structure Sieve (κ : Type*) where
  queue : List κ := []
  hand : Option κ := none
  log : List (Sieve.Event κ) := []

namespace Sieve

variable {κ : Type*} [DecidableEq κ] (s : Sieve κ)

/-- The key was visited. -/
def visited (k : κ) : Bool := latestHit s.log k

/-- The keys in the order the hand goes over them. -/
def order : List κ :=
  match s.hand with
  | none => s.queue
  | some k => s.queue.dropWhile (· ≠ k) ++ s.queue.takeWhile (· ≠ k)

/-- The keys the hand passes. -/
def passed : List κ := s.order.takeWhile s.visited

/-- The key the hand stops at: the first one that was not visited, or the one it started at, if all were. -/
def victim : Option κ := (s.order.find? fun k => !s.visited k).or s.order.head?

/-- The key just newer than another. -/
def newer (k : κ) : Option κ := (s.queue.dropWhile (· ≠ k)).tail.head?

/-- One key goes, and the hand moves on. -/
def evict : Sieve κ :=
  match s.victim with
  | none => s
  | some k =>
    { queue := s.queue.erase k
      hand := s.newer k
      log := (s.passed.map .passed).reverse ++ s.log }

/-- A key is used. -/
def hit (k : κ) : Sieve κ := { s with log := .hit k :: s.log }

/-- A new key. -/
def insert (k : κ) : Sieve κ := { s with queue := s.queue ++ [k], log := .inserted k :: s.log }

/-- A key is taken out: if the hand is there, it moves on. -/
def remove (k : κ) : Sieve κ :=
  { s with
    queue := s.queue.erase k
    hand := if s.hand = some k then s.newer k else s.hand }

/-- A key is set, in a cache of at most `capacity` keys. -/
def set (capacity : ℕ) (k : κ) : Sieve κ :=
  if k ∈ s.queue then s.hit k
  else if s.queue.length < capacity then s.insert k
  else s.evict.insert k

theorem latestHit_cons (e : Event κ) (log : List (Event κ)) (k : κ) :
    latestHit (e :: log) k = if e.key = k then decide (e = .hit k) else latestHit log k := by
  rw [latestHit]
  split_ifs with hk
  · rw [List.find?_cons_of_pos (by simpa using hk)]
    cases e with
    | inserted k' => simp
    | hit k' => simpa [Event.key] using hk
    | passed k' => simp
  · rw [List.find?_cons_of_neg (by simpa using hk)]
    rfl

/-- The marks of the keys that were passed are cleared, and no others. -/
theorem latestHit_append_passed (ks : List κ) (log : List (Event κ)) (k : κ) :
    latestHit ((ks.map Event.passed).reverse ++ log) k =
      if k ∈ ks then false else latestHit log k := by
  induction ks generalizing log with
  | nil => simp
  | cons k' ks ih =>
    rw [List.map_cons, List.reverse_cons, List.append_assoc, List.singleton_append, ih, latestHit_cons]
    by_cases hk : k' = k
    · simp [Event.key, hk]
    · simp [Event.key, hk, Ne.symm hk]

omit [DecidableEq κ] in
theorem takeWhile_congr {p q : κ → Bool} {l : List κ} (h : ∀ k ∈ l, p k = q k) :
    l.takeWhile p = l.takeWhile q := by
  induction l with
  | nil => rfl
  | cons k l ih =>
    rw [List.takeWhile_cons, List.takeWhile_cons, h k List.mem_cons_self,
      ih fun j hj => h j (List.mem_cons_of_mem _ hj)]

section Queue

variable {s : Sieve κ} {older rest : List κ} {k : κ} (hqueue : s.queue = older ++ k :: rest) (hk : k ∉ older)

include hqueue hk

theorem dropWhile_queue : s.queue.dropWhile (· ≠ k) = k :: rest := by
  have hall : ∀ j ∈ older, decide (j ≠ k) = true := fun j hj => decide_eq_true fun h => hk (h ▸ hj)
  rw [hqueue, List.dropWhile_append_of_pos hall, List.dropWhile_cons_of_neg (by simp)]

theorem takeWhile_queue : s.queue.takeWhile (· ≠ k) = older := by
  have hall : ∀ j ∈ older, decide (j ≠ k) = true := fun j hj => decide_eq_true fun h => hk (h ▸ hj)
  rw [hqueue, List.takeWhile_append_of_pos hall, List.takeWhile_cons_of_neg (by simp), List.append_nil]

theorem erase_queue : s.queue.erase k = older ++ rest := by
  rw [hqueue, List.erase_append_right _ hk, List.erase_cons_head]

theorem newer_eq : s.newer k = rest.head? := by
  rw [newer, dropWhile_queue hqueue hk, List.tail_cons]

theorem order_eq (hhand : s.hand = some k) : s.order = k :: rest ++ older := by
  rw [order, hhand]
  dsimp only
  rw [dropWhile_queue hqueue hk, takeWhile_queue hqueue hk]

end Queue

end Sieve

end Lib
