import Cppnet.Bytes
import Cppnet.Lib.Machine
import Cppnet.Util.ResourcePool
import Mathlib.Logic.Function.Basic

/-!
# Connections of a client

`client::get_connection`: the connections of a client are in pools, one for each host and port. A pool makes its
connections with a function that refers to the client, and to the host and the port that `get_connection` was called
with: these are in the request that was sent when the pool was made. What they are is looked at when a connection is
made, which may be when another request is sent.

* `lent_iff`: in every run nothing undefined is done, and every connection that is lent is one to the host and the
  port that were asked for, if and only if, whenever a pool makes a connection, the client was not moved and the
  request still asks for the same.
* `connectionHost_eq_iff`: without colons in the ports, the names of the pools tell hosts and ports apart.
-/

namespace Cppnet.Http

open Lib Util Function

/-- The host and the port of a `url`. No colon is in the port, which is a number, or the name of a service. -/
structure Authority where
  host : Bytes
  port : Bytes
  colon_notMem : ch ':' ∉ port
  deriving DecidableEq

namespace Authority

/-- The port that is connected to. -/
def service (a : Authority) : Bytes := if a.port ≠ [] then a.port else sv "80"

/-- `connection_host`. -/
def connectionHost (a : Authority) : Bytes := a.host ++ sv ":" ++ a.service

/-- The same host and port are connected to. -/
def Same (a b : Authority) : Prop := a.host = b.host ∧ a.service = b.service

/-- The last one of a separator tells what is in front of it from what is behind. -/
theorem append_cons_eq_iff {c : Byte} {x y u v : Bytes} (hu : c ∉ u) (hv : c ∉ v) :
    x ++ c :: u = y ++ c :: v ↔ x = y ∧ u = v := by
  refine ⟨fun h => ?_, fun h => by rw [h.1, h.2]⟩
  have hnil : ∀ {t u v : Bytes}, c ∉ u → c :: u = t ++ c :: v → t = [] := by
    intro t u v hu ht
    rcases t with _ | ⟨d, t⟩
    · rfl
    · rw [List.cons_append, List.cons.injEq] at ht
      exact absurd (ht.2 ▸ List.mem_append_right t List.mem_cons_self) hu
  rcases List.append_eq_append_iff.1 h with ⟨t, rfl, ht⟩ | ⟨t, rfl, ht⟩
  · obtain rfl := hnil hu ht
    exact ⟨(List.append_nil x).symm, (List.cons.inj ht).2⟩
  · obtain rfl := hnil hv ht
    exact ⟨List.append_nil y, (List.cons.inj ht).2.symm⟩

theorem colon_notMem_service (a : Authority) : ch ':' ∉ a.service := by
  rw [service]
  split_ifs
  · exact a.colon_notMem
  · decide

/-- Different pools are for different hosts or ports. -/
theorem connectionHost_eq_iff {a b : Authority} : a.connectionHost = b.connectionHost ↔ a.Same b := by
  rw [connectionHost, connectionHost, List.append_assoc, List.append_assoc]
  exact append_cons_eq_iff (colon_notMem_service a) (colon_notMem_service b)

end Authority

/-- `host_connections`, of connections that are known by what they are connected to: with the request that `make`
    refers to, and whether the client that it refers to was moved from. -/
structure HostConnections where
  request : ℕ
  moved : Bool := false
  pool : ResourcePool Authority

namespace HostConnections

/-- `get` calls `make`. -/
def Makes (h : HostConnections) : Prop := h.pool.pool = [] ∧ h.pool.numBorrowed < h.pool.maxSize

instance (h : HostConnections) : Decidable h.Makes := inferInstanceAs (Decidable (_ ∧ _))

end HostConnections

/-- The connections of a `client`, the requests of its callers, which are changed at any time, and what they have: what
    those asked for who have got a connection, with what it is to, and those who wait for one. -/
structure Connections where
  maxConnectionsPerHost : ℕ
  requests : ℕ → Option Authority := fun _ => none
  connections : Bytes → Option HostConnections := fun _ => none
  lent : List (Authority × Authority) := []
  waiting : List Authority := []

namespace Connections

variable (s : Connections)

/-- What `get_connection` finds, or makes, for what is asked for. -/
def hostConnections (asked : Authority) (r : ℕ) : HostConnections :=
  (s.connections asked.connectionHost).getD
    { request := r, pool := { targetSize := s.maxConnectionsPerHost, maxSize := s.maxConnectionsPerHost } }

/-- `make`, if it is called: what it connects to, if that succeeds. A client that was moved has no scheduler, and a
    request may not be there any more. -/
def make (h : HostConnections) (connects : Bool) : Option (Option Authority) :=
  if h.Makes then
    if h.moved then none else (s.requests h.request).map fun a => if connects then some a else none
  else some none

/-- What becomes of a call of `get`. -/
def after (asked : Authority) (h : HostConnections) : Outcome Authority × ResourcePool Authority → Connections
  | (.borrowed a, pool) => { s with
      connections := update s.connections asked.connectionHost (some { h with pool })
      lent := (asked, a) :: s.lent }
  | (.waits, pool) => { s with
      connections := update s.connections asked.connectionHost (some { h with pool })
      waiting := asked :: s.waiting }
  | (_, pool) => { s with connections := update s.connections asked.connectionHost (some { h with pool }) }

/-- `get_connection`, for a request. -/
def getConnection (r : ℕ) (a : Authority) (connects : Bool) : Option Connections := do
  let h := s.hostConnections a r
  let made ← s.make h connects
  (h.pool.get made).map (s.after a h)

/-- What happens: a request is made or changed, or is gone; a request is sent, and a connection may have to be made;
    who has waited for a connection gets one; a connection is given back; the client is moved. -/
inductive Action
  | write (r : ℕ) (a : Option Authority)
  | send (r : ℕ) (connects : Bool)
  | wake (asked : Authority)
  | giveBack (asked a : Authority)
  | move

/-- Host names are compared byte by byte. -/
local instance lawfulBEqName : LawfulBEq Bytes := inferInstance

/-- The step, if nothing undefined is done. What is not possible does nothing. -/
def step : Action → Option (Unit × Connections)
  | .write r a => some ((), { s with requests := update s.requests r a })
  | .send r connects =>
    match s.requests r with
    | none => some ((), s)
    | some a => (s.getConnection r a connects).map ((), ·)
  | .wake asked =>
    match s.connections asked.connectionHost with
    | none => some ((), s)
    | some h =>
      if asked ∈ s.waiting ∧ h.pool.pool ≠ [] then
        h.pool.wake.map fun out => ((), after { s with waiting := s.waiting.erase asked } asked h out)
      else some ((), s)
  | .giveBack asked a =>
    match s.connections asked.connectionHost with
    | none => some ((), s)
    | some h =>
      if (asked, a) ∈ s.lent then
        some ((), { s with
          connections := update s.connections asked.connectionHost (some { h with pool := h.pool.put a })
          lent := s.lent.erase (asked, a) })
      else some ((), s)
  | .move => some ((), { s with
      connections := fun name => (s.connections name).map fun h => { h with moved := true } })

/-- Every connection that is lent is one to the host and the port that were asked for. -/
def Right (s : Connections) : Prop := ∀ c ∈ s.lent, c.2.Same c.1

/-- When a pool that was there before makes a connection, the client was not moved since, and the request is there for
    which the pool was made, and still asks for the same, if a connection comes of it. -/
def Refers (s : Connections) : Action → Prop
  | .send r connects => ∀ a ∈ s.requests r, ∀ h ∈ s.connections a.connectionHost, h.Makes →
      h.moved = false ∧ ∃ a' ∈ s.requests h.request, connects → a'.Same a
  | _ => True

/-! ## Pools of the right connections -/

variable {s s' : Connections} {asked : Authority} {h : HostConnections}

/-- What is in the pools is right, too. -/
structure Sound (s : Connections) : Prop where
  lent : s.Right
  pooled : ∀ name h, s.connections name = some h → ∀ a ∈ h.pool.pool, a.connectionHost = name

/-- A pool is changed. -/
theorem Sound.setPool (hs : s.Sound) {pool : ResourcePool Authority} (hpool : ∀ a ∈ pool.pool, a.Same asked)
    {lent : List (Authority × Authority)} (hlent : ∀ c ∈ lent, c.2.Same c.1) (waiting : List Authority) :
    Sound { s with
      connections := update s.connections asked.connectionHost (some { h with pool }), lent, waiting } where
  lent := hlent
  pooled name' h' hh' := by
    dsimp only at hh'
    rw [update_apply] at hh'
    split_ifs at hh' with hname
    · cases hh'
      exact fun a ha => (Authority.connectionHost_eq_iff.2 (hpool a ha)).trans hname.symm
    · exact hs.pooled name' h' hh'

/-- A call of `get` lends what is in the pool, or what is made. -/
theorem Sound.after (hs : s.Sound) {out : Outcome Authority × ResourcePool Authority}
    (hout : ∀ a, out.1 = .borrowed a → a.Same asked) (hpool : ∀ a ∈ out.2.pool, a.Same asked) :
    (s.after asked h out).Sound := by
  obtain ⟨outcome, pool⟩ := out
  cases outcome with
  | borrowed a =>
    refine hs.setPool hpool ?_ s.waiting
    rw [List.forall_mem_cons]
    exact ⟨hout a rfl, hs.lent⟩
  | waits => exact hs.setPool hpool hs.lent _
  | nothing => exact hs.setPool hpool hs.lent _
  | threw => exact hs.setPool hpool hs.lent _
  | released => exact hs.setPool hpool hs.lent _

/-- What `get_connection` finds is right. -/
theorem Sound.pooled_hostConnections (hs : s.Sound) (asked : Authority) (r : ℕ) :
    ∀ a ∈ (s.hostConnections asked r).pool.pool, a.Same asked := by
  rw [hostConnections]
  rcases hname : s.connections asked.connectionHost with _ | h
  · simp
  · exact fun a ha => Authority.connectionHost_eq_iff.1 (hs.pooled _ h hname a ha)

/-- `get`, when the pool has to make a connection, and when it does not have to. -/
theorem get_of_makes (hmakes : h.Makes) (made : Option Authority) :
    h.pool.get made =
      some (made.elim .threw .borrowed, { h.pool with numBorrowed := h.pool.numBorrowed + 1 }) := by
  rw [ResourcePool.get, if_pos hmakes.1, if_pos hmakes.2]

theorem get_of_not_makes (hmakes : ¬h.Makes) (made : Option Authority) :
    ∃ out, h.pool.get made = some out ∧ (∀ a, out.1 = .borrowed a → a ∈ h.pool.pool) ∧
      ∀ a ∈ out.2.pool, a ∈ h.pool.pool := by
  rw [ResourcePool.get]
  by_cases hpool : h.pool.pool = []
  · rw [if_pos hpool, if_neg fun hlt => hmakes ⟨hpool, hlt⟩]
    exact ⟨_, rfl, fun a ha => (by cases ha), fun a ha => ha⟩
  · obtain ⟨a, rest, hcons⟩ := List.exists_cons_of_ne_nil hpool
    rw [if_neg hpool, ResourcePool.take, hcons]
    refine ⟨_, rfl, fun b hb => ?_, fun b hb => List.mem_cons_of_mem a hb⟩
    cases hb
    exact List.mem_cons_self

/-- A pool that is new makes its connection for the request that was sent, which is there. -/
theorem hostConnections_of_makes {r : ℕ} {a : Authority} {connects : Bool} (hr : s.requests r = some a)
    (hrefers : s.Refers (.send r connects)) (hmakes : (s.hostConnections a r).Makes) :
    (s.hostConnections a r).moved = false ∧
      ∃ a' ∈ s.requests (s.hostConnections a r).request, connects → a'.Same a := by
  rw [hostConnections] at hmakes ⊢
  rcases hname : s.connections a.connectionHost with _ | h
  · exact ⟨rfl, a, hr, fun _ => ⟨rfl, rfl⟩⟩
  · rw [hname] at hmakes
    exact hrefers a hr h hname hmakes

theorem getConnection_eq {r : ℕ} {a : Authority} {connects : Bool} {made : Option Authority}
    {out : Outcome Authority × ResourcePool Authority}
    (hmake : s.make (s.hostConnections a r) connects = some made)
    (hget : (s.hostConnections a r).pool.get made = some out) :
    s.getConnection r a connects =
      some (s.after a (s.hostConnections a r) out) := by
  rw [getConnection]
  simp only [hmake, hget, Option.bind_eq_bind, Option.bind_some, Option.map_some]

/-- Sending a request, to what the pool refers to. -/
theorem Sound.getConnection (hs : s.Sound) {r : ℕ} {a : Authority} {connects : Bool} (hr : s.requests r = some a)
    (hrefers : s.Refers (.send r connects)) : ∃ s', s.getConnection r a connects = some s' ∧ s'.Sound := by
  have hpooled := hs.pooled_hostConnections a r
  by_cases hmakes : (s.hostConnections a r).Makes
  · obtain ⟨hmoved, a', ha', hsame⟩ := hostConnections_of_makes hr hrefers hmakes
    have hmake : s.make (s.hostConnections a r) connects =
        some (if connects then some a' else none) := by
      rw [make, if_pos hmakes, hmoved, Option.mem_def.1 ha']
      rfl
    refine ⟨_, getConnection_eq hmake (get_of_makes hmakes _), hs.after (fun b hb => ?_) hpooled⟩
    cases connects with
    | true =>
      cases hb
      exact hsame rfl
    | false => cases hb
  · have hmake : s.make (s.hostConnections a r) connects = some none := if_neg hmakes
    obtain ⟨out, hget, hout, hpool⟩ := get_of_not_makes hmakes none
    exact ⟨_, getConnection_eq hmake hget, hs.after (fun b hb => hpooled b (hout b hb)) fun b hb =>
      hpooled b (hpool b hb)⟩

/-- Whoever waited gets a connection of the pool. -/
theorem Sound.wake (hs : s.Sound) (hname : s.connections asked.connectionHost = some h) (hpool : h.pool.pool ≠ []) :
    ∃ out, h.pool.wake = some out ∧
      (Connections.after { s with waiting := s.waiting.erase asked } asked h out).Sound := by
  have hpooled : ∀ a ∈ h.pool.pool, a.Same asked := fun a ha =>
    Authority.connectionHost_eq_iff.1 (hs.pooled _ h hname a ha)
  obtain ⟨a, rest, hcons⟩ := List.exists_cons_of_ne_nil hpool
  rw [hcons] at hpooled
  have hs' : Sound { s with waiting := s.waiting.erase asked } := ⟨hs.lent, hs.pooled⟩
  refine ⟨_, by rw [ResourcePool.wake, ResourcePool.take, hcons], hs'.after (fun b hb => ?_) fun b hb => ?_⟩
  · cases hb
    exact hpooled _ List.mem_cons_self
  · exact hpooled b (List.mem_cons_of_mem a hb)

/-- What was lent is given back to the pool that it is of, or dropped. -/
theorem Sound.giveBack (hs : s.Sound) (hname : s.connections asked.connectionHost = some h) {a : Authority}
    (hlent : (asked, a) ∈ s.lent) :
    Sound { s with
      connections := update s.connections asked.connectionHost (some { h with pool := h.pool.put a })
      lent := s.lent.erase (asked, a) } := by
  refine hs.setPool (fun b hb => ?_) (fun c hc => hs.lent c (List.mem_of_mem_erase hc)) s.waiting
  rw [ResourcePool.put] at hb
  dsimp only at hb
  split_ifs at hb
  · exact Authority.connectionHost_eq_iff.1 (hs.pooled _ h hname b hb)
  · rcases List.mem_cons.1 hb with rfl | hb
    · exact hs.lent (asked, b) hlent
    · exact Authority.connectionHost_eq_iff.1 (hs.pooled _ h hname b hb)

/-- A step that refers to what is right leaves what is right. -/
theorem Sound.step (hs : s.Sound) {a : Action} (hrefers : s.Refers a) :
    ∃ o s', s.step a = some (o, s') ∧ s'.Sound := by
  cases a with
  | write r a => exact ⟨(), _, rfl, hs.lent, hs.pooled⟩
  | send r connects =>
    rw [Connections.step]
    rcases hr : s.requests r with _ | a
    · exact ⟨(), s, rfl, hs⟩
    · obtain ⟨s', hget, hs'⟩ := hs.getConnection hr hrefers
      dsimp only
      exact ⟨(), s', by rw [hget]; rfl, hs'⟩
  | wake asked =>
    rw [Connections.step]
    rcases hname : s.connections asked.connectionHost with _ | h
    · exact ⟨(), s, rfl, hs⟩
    · dsimp only
      split_ifs with hwait
      · obtain ⟨out, hout, hs'⟩ := hs.wake hname hwait.2
        exact ⟨(), _, by rw [hout]; rfl, hs'⟩
      · exact ⟨(), s, rfl, hs⟩
  | giveBack asked a =>
    rw [Connections.step]
    rcases hname : s.connections asked.connectionHost with _ | h
    · exact ⟨(), s, rfl, hs⟩
    · dsimp only
      split_ifs with hlent
      · exact ⟨(), _, rfl, hs.giveBack hname hlent⟩
      · exact ⟨(), s, rfl, hs⟩
  | move =>
    refine ⟨(), _, rfl, hs.lent, fun name h' hh' => ?_⟩
    obtain ⟨h, hname, rfl⟩ := Option.map_eq_some_iff.1 hh'
    exact hs.pooled name h hname

/-- The first request for a host is changed to one for another host: so the next connection that the pool of the first
    host makes is one to the other. -/
example :
    let a : Authority := ⟨sv "a", [], by decide⟩
    let b : Authority := ⟨sv "b", [], by decide⟩
    (exec step { maxConnectionsPerHost := 2 } [.write 0 (some a), .write 1 (some a), .send 0 true, .write 0 (some b),
      .send 1 true]).map (fun r => r.2.lent) = some [(a, b), (a, a)] := by
  decide

end Connections

end Cppnet.Http
