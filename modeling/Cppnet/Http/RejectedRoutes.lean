import Cppnet.Http.Routes

/-!
# Routes that are rejected

`get_subrouter` makes what is missing of the tree before it looks at the next segment, so a route that is rejected
leaves its start in the tree, as a chain of routers without handlers (`Bare`).

* `bare_iff`: what such a chain answers: that the method is not allowed along it, and that there is nothing
  elsewhere.
* `rejected_iff`: a route that is rejected changes no answer if and only if nothing of its start was missing, or the
  chain is in front of a wildcard that is one itself (`Unseen`).
-/

namespace Cppnet.Http.Router

open Util

variable {η : Type*}

/-! ## The paths -/

/-- A part of a path. -/
def IsPart (part : Bytes) : Prop := ch '/' ∉ part

theorem isPart_of_mem_segments {route part : Bytes} (h : part ∈ segments route) : IsPart part := by
  rw [segments, splitString_eq _ _ (Nat.zero_le _)] at h
  exact not_mem_of_mem_splitOn _ part h

/-- Any parts are those of a path. -/
theorem exists_segments {parts : List Bytes} (hne : parts ≠ []) (hparts : ∀ part ∈ parts, IsPart part) :
    ∃ path, segments path = parts := by
  refine ⟨ch '/' :: [ch '/'].intercalate parts, ?_⟩
  rw [segments, List.head?_cons, if_pos rfl, List.drop_one, List.tail_cons, splitString_eq _ _ (Nat.zero_le _),
    List.drop_zero]
  exact List.splitOn_intercalate _ hparts hne

/-! ## What a router answers -/

/-- What becomes of a request for the parts of a path, from a router on. -/
def answer (r : Router η) (method : RequestMethod) (parts : List Bytes) : Outcome η :=
  match walk parts r with
  | none => .send .notFound
  | some sub =>
    match sub.methodHandlers method with
    | none => .send .methodNotAllowed
    | some h => .invoke h

theorem dispatch_eq_answer (r : Router η) (method : RequestMethod) (path : Bytes) :
    r.dispatch method path = r.answer method (segments path) := rfl

/-- The router for the first part of a path. -/
def next (r : Router η) (part : Bytes) : Option (Router η) := (r.child (.literal part)).or (r.child .wildcard)

theorem answer_cons (r : Router η) (method : RequestMethod) (part : Bytes) (parts : List Bytes) :
    r.answer method (part :: parts) =
      (r.next part).elim (.send .notFound) fun sub => sub.answer method parts := by
  rw [answer, walk, next, child, child]
  cases r.children part with
  | some sub => rfl
  | none => cases r.wildcard <;> rfl

theorem answer_nil_ne (r : Router η) (method : RequestMethod) : r.answer method [] ≠ .send .notFound := by
  rw [answer, walk]
  dsimp only
  intro h
  cases hhandlers : r.methodHandlers method with
  | none =>
    rw [hhandlers] at h
    cases h
  | some handlers =>
    rw [hhandlers] at h
    cases h

theorem answer_nil_iff (r : Router η) (method : RequestMethod) :
    r.answer method [] = .send .methodNotAllowed ↔ r.methodHandlers method = none := by
  rw [answer, walk]
  dsimp only
  cases r.methodHandlers method <;> simp

/-- Where a path ends, the handlers answer. -/
theorem answer_nil_congr {r r' : Router η} (h : r'.methodHandlers = r.methodHandlers) (method : RequestMethod) :
    r.answer method [] = r'.answer method [] := by
  rw [answer, answer, walk, walk]
  dsimp only
  rw [h]

/-- Two routers answer every request in the same way. -/
def Same (r r' : Router η) : Prop :=
  ∀ method parts, (∀ part ∈ parts, IsPart part) → r.answer method parts = r'.answer method parts

section Same

variable {r r' sub sub' : Router η} {part : Bytes}

/-- Two routers that differ in where some parts lead. -/
theorem same_iff_of_next (hhandlers : r'.methodHandlers = r.methodHandlers) (hpart : IsPart part)
    (hr : r.next part = some sub) (hr' : r'.next part = some sub')
    (hnext : ∀ s, r'.next s = r.next s ∨ r.next s = some sub ∧ r'.next s = some sub') :
    Same r r' ↔ Same sub sub' := by
  constructor
  · intro h method parts hparts
    have hcons := h method (part :: parts) (List.forall_mem_cons.2 ⟨hpart, hparts⟩)
    rwa [answer_cons, answer_cons, hr, hr'] at hcons
  · intro h method parts hparts
    cases parts with
    | nil => exact answer_nil_congr hhandlers method
    | cons s parts =>
      rw [answer_cons, answer_cons]
      rcases hnext s with heq | ⟨hs, hs'⟩
      · rw [heq]
      · rw [hs, hs']
        exact h method parts (List.forall_mem_cons.1 hparts).2

/-- A part that led nowhere is answered in another way when it leads somewhere. -/
theorem not_same_of_next (hpart : IsPart part) (hr : r.next part = none) (hr' : r'.next part = some sub) :
    ¬Same r r' := by
  intro h
  have hcons := h .get [part] (by simpa using hpart)
  rw [answer_cons, answer_cons, hr, hr'] at hcons
  exact answer_nil_ne sub .get hcons.symm

end Same

/-! ## The trees -/

/-- A key of a router: a part of a route that is not the name of a wildcard. -/
def IsKey (part : Bytes) : Prop := IsPart part ∧ part.head? ≠ some (ch ':')

/-- The keys of a router, and of those below it, are keys. -/
inductive Formed : Router η → Prop
  | intro {r : Router η} (keys : ∀ part sub, r.child (.literal part) = some sub → IsKey part)
      (below : ∀ seg sub, r.child seg = some sub → Formed sub) : Formed r

theorem formed_empty : Formed (empty : Router η) := ⟨nofun, fun seg sub h => by cases seg <;> cases h⟩

/-- A part that is no key. -/
def colon : Bytes := [ch ':']

theorem isPart_colon : IsPart colon := by
  rw [IsPart]
  decide

theorem Formed.child_colon {r : Router η} (h : r.Formed) : r.child (.literal colon) = none := by
  obtain ⟨hkeys, -⟩ := h
  rcases hsub : r.child (.literal colon) with _ | sub
  · rfl
  · exact absurd rfl (hkeys colon sub hsub).2

/-- It leads to the wildcard. -/
theorem Formed.next_colon {r : Router η} (h : r.Formed) : r.next colon = r.child .wildcard := by
  rw [next, h.child_colon, Option.none_or]

/-- What is done to a router of a tree leaves it formed, also if something is thrown on the way there. -/
theorem Formed.atSubrouter {f : Router η → Router η} (hf : ∀ r, Formed r → Formed (f r)) {parts : List Bytes}
    (hparts : ∀ part ∈ parts, IsPart part) {r : Router η} (h : r.Formed) : (atSubrouter f parts r).1.Formed := by
  induction parts generalizing r with
  | nil => exact hf r h
  | cons part parts ih =>
    rw [List.forall_mem_cons] at hparts
    rcases atSubrouter_cases f part parts r with ⟨-, e, heq⟩ | ⟨-, r', sub, thrown, heq, hsub, hchild, -⟩
    · rw [heq]
      exact h
    · rw [heq]
      obtain ⟨hkeys, hbelow⟩ := h
      have hsubFormed : sub.Formed := by
        have hgetD : ((r.child (.ofPart part)).getD empty).Formed := by
          rcases hc : r.child (.ofPart part) with _ | c
          · exact formed_empty
          · exact hbelow _ c hc
        have hrest := ih hparts.2 hgetD
        rwa [hsub] at hrest
      refine ⟨fun s c hc => ?_, fun seg c hc => ?_⟩
      · rw [hchild] at hc
        split_ifs at hc with hseg
        · -- The new key is the part itself.
          rw [Seg.ofPart] at hseg
          split_ifs at hseg with hcolon
          cases hseg
          exact ⟨hparts.1, hcolon⟩
        · exact hkeys s c hc
      · rw [hchild] at hc
        split_ifs at hc with hseg
        · cases hc
          exact hsubFormed
        · exact hbelow seg c hc

/-- Every `add` leaves a router formed, also one that throws. -/
theorem Formed.add {r : Router η} (h : r.Formed) (method : RequestMethod) (route : Bytes) (handler : η) :
    (r.add method route handler).1.Formed := by
  refine h.atSubrouter (fun sub hsub => ?_) fun part hpart => isPart_of_mem_segments hpart
  obtain ⟨hkeys, hbelow⟩ := hsub
  exact ⟨hkeys, fun seg c hc => hbelow seg c (by cases seg <;> exact hc)⟩

/-- A router after calls of `add`, each of which may throw. -/
def afterAdds (r : Router η) (routes : List (Route η)) : Router η :=
  routes.foldl (fun r ρ => (r.add ρ.method ρ.route ρ.handler).1) r

theorem Formed.afterAdds {r : Router η} (h : r.Formed) (routes : List (Route η)) : (r.afterAdds routes).Formed := by
  induction routes generalizing r with
  | nil => exact h
  | cons ρ routes ih => exact ih (h.add ρ.method ρ.route ρ.handler)

/-! ## Chains -/

/-- A chain of routers along a pattern: none of them has a handler, and nothing else is below them. At a wildcard,
    there may be children as well, if they are such chains themselves. -/
def Bare : Pattern → Router η → Prop
  | [], r => (∀ method, r.methodHandlers method = none) ∧ ∀ seg, r.child seg = none
  | .literal s :: p, r => (∀ method, r.methodHandlers method = none) ∧
      (∃ sub, r.child (.literal s) = some sub ∧ Bare p sub) ∧ ∀ seg, seg ≠ .literal s → r.child seg = none
  | .wildcard :: p, r => (∀ method, r.methodHandlers method = none) ∧ (r.child .wildcard).isSome ∧
      ∀ seg sub, r.child seg = some sub → Bare p sub

/-- The parts of a path lead along the start of a pattern. -/
def Goes : Pattern → List Bytes → Prop
  | _, [] => True
  | [], _ :: _ => False
  | seg :: p, part :: parts => (seg = .wildcard ∨ seg = .literal part) ∧ Goes p parts

theorem goes_nil (p : Pattern) : Goes p [] := by cases p <;> exact trivial

/-- The answers of a chain: the method is not allowed along it, and nothing is found elsewhere. -/
def ChainAnswers (p : Pattern) (r : Router η) : Prop :=
  ∀ method parts, (∀ part ∈ parts, IsPart part) →
    (Goes p parts → r.answer method parts = .send .methodNotAllowed) ∧
      (¬Goes p parts → r.answer method parts = .send .notFound)

theorem Bare.handlers {p : Pattern} {r : Router η} (h : Bare p r) (method : RequestMethod) :
    r.methodHandlers method = none := by
  rcases p with _ | ⟨_ | _, p⟩ <;> exact h.1 method

/-- Where the parts lead from a chain: along it, or nowhere. -/
theorem Bare.next {seg : Seg} {p : Pattern} {r : Router η} (h : Bare (seg :: p) r) (part : Bytes) :
    ((seg = .wildcard ∨ seg = .literal part) → ∃ sub, r.next part = some sub ∧ Bare p sub) ∧
      (¬(seg = .wildcard ∨ seg = .literal part) → r.next part = none) := by
  cases seg with
  | literal s =>
    obtain ⟨-, ⟨sub, hsub, hbare⟩, hnone⟩ := h
    rw [Router.next, hnone .wildcard nofun, Option.or_none]
    constructor
    · rintro (hwild | hlit)
      · cases hwild
      · cases hlit
        exact ⟨sub, hsub, hbare⟩
    · exact fun hnot => hnone _ fun heq => hnot (.inr heq.symm)
  | wildcard =>
    obtain ⟨-, hwild, hbelow⟩ := h
    refine ⟨fun _ => ?_, fun hnot => absurd (.inl rfl) hnot⟩
    rw [Router.next]
    rcases hlit : r.child (.literal part) with _ | sub
    · obtain ⟨w, hw⟩ := Option.isSome_iff_exists.1 hwild
      exact ⟨w, hw, hbelow _ w hw⟩
    · exact ⟨sub, rfl, hbelow _ sub hlit⟩

theorem Bare.answers {p : Pattern} {r : Router η} (h : Bare p r) : ChainAnswers p r := by
  intro method parts hparts
  induction parts generalizing p r with
  | nil =>
    exact ⟨fun _ => (answer_nil_iff r method).2 (h.handlers method), fun hnot => absurd (goes_nil p) hnot⟩
  | cons part parts ih =>
    rw [List.forall_mem_cons] at hparts
    rw [answer_cons]
    rcases p with _ | ⟨seg, p⟩
    · rw [Router.next, h.2, h.2]
      exact ⟨False.elim, fun _ => rfl⟩
    · obtain ⟨hnext, hnone⟩ := h.next part
      rw [Goes]
      by_cases hseg : seg = .wildcard ∨ seg = .literal part
      · obtain ⟨sub, hsub, hbare⟩ := hnext hseg
        obtain ⟨hgoes, hnot⟩ := ih hbare hparts.2
        rw [hsub]
        exact ⟨fun h => hgoes h.2, fun h => hnot fun hg => h ⟨hseg, hg⟩⟩
      · rw [hnone hseg]
        exact ⟨fun h => absurd h.1 hseg, fun _ => rfl⟩

section ChainAnswers

variable {p : Pattern} {r sub : Router η} {part : Bytes} (h : ChainAnswers p r) (hpart : IsPart part)

include h

theorem ChainAnswers.handlers (method : RequestMethod) : r.methodHandlers method = none :=
  (answer_nil_iff r method).1 ((h method [] (by simp)).1 (goes_nil p))

include hpart

/-- A part that leads somewhere goes along the chain, to the next router of it. -/
theorem ChainAnswers.of_next (hsub : r.next part = some sub) :
    ∃ seg q, p = seg :: q ∧ (seg = .wildcard ∨ seg = .literal part) ∧ ChainAnswers q sub := by
  have hgoes : Goes p [part] := by
    by_contra hnot
    have hnone := (h .get [part] (by simpa using hpart)).2 hnot
    rw [answer_cons, hsub] at hnone
    exact answer_nil_ne sub .get hnone
  rcases p with _ | ⟨seg, q⟩
  · exact hgoes.elim
  · refine ⟨seg, q, rfl, hgoes.1, fun method parts hparts => ?_⟩
    have hcons := h method (part :: parts) (List.forall_mem_cons.2 ⟨hpart, hparts⟩)
    rw [answer_cons, hsub] at hcons
    exact ⟨fun hq => hcons.1 ⟨hgoes.1, hq⟩, fun hq => hcons.2 fun hboth => hq hboth.2⟩

/-- A part that goes along the chain leads somewhere. -/
theorem ChainAnswers.exists_next (hgoes : Goes p [part]) : ∃ sub, r.next part = some sub := by
  have hanswer := (h .get [part] (by simpa using hpart)).1 hgoes
  rw [answer_cons] at hanswer
  rcases hsub : r.next part with _ | sub
  · rw [hsub] at hanswer
    cases hanswer
  · exact ⟨sub, rfl⟩

end ChainAnswers

/-- What answers as a chain is one. -/
theorem ChainAnswers.bare {p : Pattern} (hp : ∀ s, .literal s ∈ p → IsKey s) {r : Router η} (hr : r.Formed)
    (h : ChainAnswers p r) : Bare p r := by
  induction p generalizing r with
  | nil =>
    refine ⟨h.handlers, fun seg => ?_⟩
    rcases hc : r.child seg with _ | sub
    · rfl
    have hcolon := hr.next_colon
    obtain ⟨hkeys, -⟩ := hr
    cases seg with
    | literal s =>
      obtain ⟨seg, q, hnil, -⟩ := h.of_next (hkeys s sub hc).1 (by rw [Router.next, hc]; rfl)
      cases hnil
    | wildcard =>
      obtain ⟨seg, q, hnil, -⟩ := h.of_next isPart_colon (hcolon.trans hc)
      cases hnil
  | cons seg p ih =>
    have hp' : ∀ s, .literal s ∈ p → IsKey s := fun s hs => hp s (List.mem_cons_of_mem _ hs)
    have hcolon := hr.next_colon
    obtain ⟨hkeys, hbelow⟩ := hr
    -- Below a key, or below the wildcard, are the rest of the chain and its answers.
    have hliteral : ∀ s sub, r.child (.literal s) = some sub →
        (seg = .wildcard ∨ seg = .literal s) ∧ Bare p sub := by
      intro s sub hc
      obtain ⟨seg', q, heq, hseg, hq⟩ :=
        h.of_next (hkeys s sub hc).1 (by rw [Router.next, hc]; rfl)
      cases heq
      exact ⟨hseg, ih hp' (hbelow _ sub hc) hq⟩
    have hwildcard : ∀ sub, r.child .wildcard = some sub →
        (seg = .wildcard ∨ seg = .literal colon) ∧ Bare p sub := by
      intro sub hc
      obtain ⟨seg', q, heq, hseg, hq⟩ := h.of_next isPart_colon (hcolon.trans hc)
      cases heq
      exact ⟨hseg, ih hp' (hbelow _ sub hc) hq⟩
    cases seg with
    | literal s =>
      have hkey := hp s List.mem_cons_self
      have hnone : r.child .wildcard = none := by
        rcases hc : r.child .wildcard with _ | w
        · rfl
        · rcases (hwildcard w hc).1 with hseg | hseg
          · cases hseg
          · cases hseg
            exact absurd rfl hkey.2
      obtain ⟨sub, hsub⟩ := h.exists_next hkey.1 ⟨.inr rfl, goes_nil p⟩
      rw [Router.next, hnone, Option.or_none] at hsub
      refine ⟨h.handlers, ⟨sub, hsub, (hliteral s sub hsub).2⟩, fun seg hne => ?_⟩
      cases seg with
      | literal t =>
        rcases hc : r.child (.literal t) with _ | c
        · rfl
        · rcases (hliteral t c hc).1 with hseg | hseg
          · cases hseg
          · exact absurd hseg.symm hne
      | wildcard => exact hnone
    | wildcard =>
      obtain ⟨w, hw⟩ := h.exists_next isPart_colon ⟨.inl rfl, goes_nil p⟩
      refine ⟨h.handlers, by rw [← hcolon, hw]; rfl, fun seg sub hc => ?_⟩
      cases seg with
      | literal s => exact (hliteral s sub hc).2
      | wildcard => exact (hwildcard sub hc).2

/-- The routers that answer as a chain are the chains. -/
theorem bare_iff {p : Pattern} (hp : ∀ s, .literal s ∈ p → IsKey s) {r : Router η} (hr : r.Formed) :
    Bare p r ↔ ChainAnswers p r :=
  ⟨Bare.answers, ChainAnswers.bare hp hr⟩

/-- What answers as a chain does is one too. -/
theorem Bare.same_iff {p : Pattern} (hp : ∀ s, .literal s ∈ p → IsKey s) {r sub : Router η} (hsub : Bare p sub)
    (hr : r.Formed) : Same r sub ↔ Bare p r := by
  constructor
  · intro h
    refine (bare_iff hp hr).2 fun method parts hparts => ?_
    rw [h method parts hparts]
    exact hsub.answers method parts hparts
  · intro h method parts hparts
    by_cases hgoes : Goes p parts
    · rw [(h.answers method parts hparts).1 hgoes, (hsub.answers method parts hparts).1 hgoes]
    · rw [(h.answers method parts hparts).2 hgoes, (hsub.answers method parts hparts).2 hgoes]

/-! ## What is left of a rejected route -/

/-- The pattern of the routers that are made for the rest of a route, where none were there: up to a wildcard
    without a name. -/
def created (parts : List Bytes) : Pattern := (parts.takeWhile (· ≠ colon)).map Seg.ofPart

/-- What is left of a rejected route is not seen: no router was made for it, or the first one was made for a
    segment that a wildcard was taken for before, and below that wildcard is nothing but such a chain. -/
def Unseen : List Bytes → Router η → Prop
  | [], _ => True
  | part :: parts, r => r.Rejects part ∨
    match r.child (.ofPart part) with
    | some sub => Unseen parts sub
    | none => Seg.ofPart part ≠ .wildcard ∧ ∃ sub, r.child .wildcard = some sub ∧ Bare (created parts) sub

theorem isKey_of_mem_created {parts : List Bytes} (hparts : ∀ part ∈ parts, IsPart part) (s : Bytes)
    (hs : .literal s ∈ created parts) : IsKey s := by
  obtain ⟨part, hpart, heq⟩ := List.mem_map.1 hs
  rw [Seg.ofPart] at heq
  split_ifs at heq with hcolon
  cases heq
  exact ⟨hparts _ (List.takeWhile_subset _ hpart), hcolon⟩

theorem rejects_empty (part : Bytes) : (empty : Router η).Rejects part ↔ part = colon := by
  constructor
  · rintro ⟨hhead, hlen | ⟨hsome, -⟩⟩
    · obtain ⟨c, rfl⟩ := List.length_eq_one_iff.1 hlen
      cases hhead
      rfl
    · cases hsome
  · rintro rfl
    exact ⟨rfl, .inl rfl⟩

/-- A rejected route makes a chain of a new router. -/
theorem bare_created {f : Router η → Router η} {parts : List Bytes} {sub : Router η} {e : RuntimeError}
    (h : atSubrouter f parts empty = (sub, some e)) : Bare (created parts) sub := by
  induction parts generalizing sub with
  | nil => cases h
  | cons part parts ih =>
    have hempty : ∀ seg, (empty : Router η).child seg = none := fun seg => by cases seg <;> rfl
    rcases atSubrouter_cases f part parts (empty : Router η) with
      ⟨hrejects, e', heq⟩ | ⟨hrejects, r', sub', thrown, heq, hsub', hchild, hhandlers⟩
    · cases heq.symm.trans h
      rw [created, (rejects_empty part).1 hrejects, List.takeWhile_cons_of_neg (by simp)]
      exact ⟨fun _ => rfl, hempty⟩
    · cases heq.symm.trans h
      have hne : part ≠ colon := fun heq => hrejects ((rejects_empty part).2 heq)
      rw [hempty, Option.getD_none] at hsub'
      have hbare := ih hsub'
      have hnone : ∀ method, sub.methodHandlers method = none := fun method => by rw [hhandlers]; rfl
      rw [created, List.takeWhile_cons_of_pos (by simpa using hne), List.map_cons]
      change Bare (Seg.ofPart part :: created parts) sub
      have hself : sub.child (.ofPart part) = some sub' := by rw [hchild, if_pos rfl]
      have hother : ∀ seg, seg ≠ .ofPart part → sub.child seg = none := fun seg hseg => by
        rw [hchild, if_neg hseg, hempty]
      generalize Seg.ofPart part = seg at hself hother
      cases seg with
      | literal s => exact ⟨hnone, ⟨sub', hself, hbare⟩, hother⟩
      | wildcard =>
        refine ⟨hnone, by rw [hself]; rfl, fun seg c hc => ?_⟩
        by_cases hseg : seg = .wildcard
        · subst hseg
          cases hself.symm.trans hc
          exact hbare
        · rw [hother seg hseg] at hc
          cases hc

/-- A router with another one below it for a segment. -/
structure Replaced (r r' : Router η) (seg : Seg) (sub : Router η) : Prop where
  handlers : r'.methodHandlers = r.methodHandlers
  self : r'.child seg = some sub
  other : ∀ seg', seg' ≠ seg → r'.child seg' = r.child seg'

section Replaced

variable {r r' sub sub' : Router η} {s : Bytes}

theorem Replaced.next_self (h : Replaced r r' (.literal s) sub') : r'.next s = some sub' := by
  rw [next, h.self, Option.some_or]

/-- Below a segment, what that part led to before, the wildcard's or its own, is answered as before. -/
theorem Replaced.same_literal_iff (h : Replaced r r' (.literal s) sub') (hs : IsPart s)
    (hnext : r.next s = some sub) : Same r r' ↔ Same sub sub' := by
  refine same_iff_of_next h.handlers hs hnext h.next_self fun t => ?_
  by_cases ht : t = s
  · subst ht
    exact .inr ⟨hnext, h.next_self⟩
  · refine .inl ?_
    rw [next, next, h.other _ fun heq => ht (Seg.literal.inj heq), h.other .wildcard nofun]

theorem Replaced.next_colon (h : Replaced r r' .wildcard sub') (hcolon : r.child (.literal colon) = none) :
    r'.next colon = some sub' := by
  rw [next, h.other (.literal colon) nofun, hcolon, Option.none_or, h.self]

/-- Below the wildcard, which is there for the part that is no key. -/
theorem Replaced.same_wildcard_iff (h : Replaced r r' .wildcard sub')
    (hcolon : r.child (.literal colon) = none) (hsub : r.child .wildcard = some sub) :
    Same r r' ↔ Same sub sub' := by
  have hnext : r.next colon = some sub := by rw [next, hcolon, Option.none_or, hsub]
  refine same_iff_of_next h.handlers isPart_colon hnext (h.next_colon hcolon) fun t => ?_
  rw [next, next, h.other (.literal t) nofun, h.self, hsub]
  cases r.child (.literal t) with
  | none => exact .inr ⟨rfl, rfl⟩
  | some d => exact .inl rfl

end Replaced

/-- A rejected route changes no answer if and only if what is left of it is not seen. -/
theorem same_iff_unseen {f : Router η → Router η} {parts : List Bytes} (hparts : ∀ part ∈ parts, IsPart part)
    {r r' : Router η} (hr : r.Formed) {e : RuntimeError} (h : atSubrouter f parts r = (r', some e)) :
    Same r r' ↔ Unseen parts r := by
  induction parts generalizing r r' with
  | nil => cases h
  | cons part parts ih =>
    rw [List.forall_mem_cons] at hparts
    rw [Unseen]
    rcases atSubrouter_cases f part parts r with
      ⟨hrejects, e', heq⟩ | ⟨hrejects, r₁, sub', thrown, heq, hsub', hchild, hhandlers⟩
    · -- Nothing was changed.
      cases heq.symm.trans h
      exact iff_of_true (fun _ _ _ => rfl) (.inl hrejects)
    · cases heq.symm.trans h
      rw [or_iff_right hrejects]
      have hcolon := hr.child_colon
      obtain ⟨-, hbelow⟩ := hr
      have hreplaced : Replaced r r' (.ofPart part) sub' :=
        ⟨hhandlers, by rw [hchild, if_pos rfl], fun seg hseg => by rw [hchild, if_neg hseg]⟩
      rcases hseg : Seg.ofPart part with s | _
      · -- A segment: it is taken for itself now, and was for the wildcard if it was not there.
        obtain rfl : s = part := by
          rw [Seg.ofPart] at hseg
          split_ifs at hseg
          exact (Seg.literal.inj hseg).symm
        rw [hseg] at hreplaced hsub'
        rcases hc : r.child (.literal s) with _ | c
        · rw [hc, Option.getD_none] at hsub'
          dsimp only
          rw [and_iff_right nofun]
          rcases hw : r.child .wildcard with _ | w
          · refine iff_of_false ?_ (by simp)
            exact not_same_of_next hparts.1 (by rw [next, hc, hw]; rfl) hreplaced.next_self
          · rw [hreplaced.same_literal_iff hparts.1 (by rw [next, hc, hw]; rfl),
              (bare_created hsub').same_iff (isKey_of_mem_created hparts.2) (hbelow _ w hw)]
            simp
        · rw [hc, Option.getD_some] at hsub'
          exact (hreplaced.same_literal_iff hparts.1 (by rw [next, hc]; rfl)).trans
            (ih hparts.2 (hbelow _ c hc) hsub')
      · -- A wildcard: one that is new is seen in any case.
        rw [hseg] at hreplaced hsub'
        rcases hc : r.child .wildcard with _ | c
        · refine iff_of_false ?_ (by simp)
          exact not_same_of_next isPart_colon (by rw [next, hcolon, hc]; rfl) (hreplaced.next_colon hcolon)
        · rw [hc, Option.getD_some] at hsub'
          exact (hreplaced.same_wildcard_iff hcolon hc).trans (ih hparts.2 (hbelow _ c hc) hsub')

/-- No handler of the router itself changes. -/
theorem methodHandlers_of_throws {f : Router η → Router η} {parts : List Bytes} {r r' : Router η}
    {e : RuntimeError} (h : atSubrouter f parts r = (r', some e)) : r'.methodHandlers = r.methodHandlers := by
  cases parts with
  | nil => cases h
  | cons part parts =>
    rcases atSubrouter_cases f part parts r with ⟨-, e', heq⟩ | ⟨-, r₁, sub, thrown, heq, -, -, hhandlers⟩
    · cases heq.symm.trans h
      rfl
    · cases heq.symm.trans h
      exact hhandlers

/-- After an `add` that throws, every request is answered as before, if and only if what is left of the route is
    not seen. Before it there were any calls of `add` on a router that is formed, as a new one is. -/
theorem rejected_iff {r₀ : Router η} (hr₀ : r₀.Formed) (routes : List (Route η)) {method : RequestMethod}
    {route : Bytes} {handler : η} {e : RuntimeError} (h : ((r₀.afterAdds routes).add method route handler).2 = some e) :
    (∀ m path, ((r₀.afterAdds routes).add method route handler).1.dispatch m path =
        (r₀.afterAdds routes).dispatch m path) ↔
      Unseen (segments route) (r₀.afterAdds routes) := by
  have hr := hr₀.afterAdds routes
  generalize r₀.afterAdds routes = r at hr h ⊢
  rw [← same_iff_unseen (fun part hpart => isPart_of_mem_segments hpart) hr (Prod.ext rfl h)]
  constructor
  · intro hdispatch m parts hparts
    cases parts with
    | nil => exact answer_nil_congr (methodHandlers_of_throws (Prod.ext rfl h)) m
    | cons part parts =>
      obtain ⟨path, hpath⟩ := exists_segments (List.cons_ne_nil part parts) hparts
      have hsame := hdispatch m path
      rw [dispatch_eq_answer, dispatch_eq_answer, hpath] at hsame
      exact hsame.symm
  · intro hsame m path
    rw [dispatch_eq_answer, dispatch_eq_answer]
    exact (hsame m _ fun part hpart => isPart_of_mem_segments hpart).symm

-- Another route that was rejected left a wildcard without handlers.
example : Unseen [sv "a", sv ":"] ((empty : Router ℕ).add .get (sv "/:x/:") 1).1 :=
  .inr ⟨nofun, _, rfl, fun _ => rfl, fun seg => by cases seg <;> rfl⟩

/-- A name that is missing where nothing has to be made for the route before it. -/
theorem rejected_iff_made :
    let r : Router ℕ := empty.afterAdds [⟨.get, sv "/a/b", 1⟩]
    (r.add .get (sv "/a/:") 2).2 = some .emptyName ∧
      ∀ m path, (r.add .get (sv "/a/:") 2).1.dispatch m path = r.dispatch m path := by
  intro r
  -- The router for the first segment is there, and the second segment is rejected.
  have hrest : ∀ sub : Router ℕ, Unseen [sv ":"] sub := fun sub => .inl ⟨rfl, .inl rfl⟩
  exact ⟨rfl, (rejected_iff formed_empty [⟨.get, sv "/a/b", 1⟩] (e := .emptyName) rfl).2 (.inr (hrest _))⟩

/-- A request that was for a wildcard meets the start of a route that was rejected. -/
theorem rejected_seen :
    let r : Router ℕ := (empty.add .get (sv "/:x") 1).1
    (r.add .get (sv "/a/:") 2).2 = some .emptyName ∧ r.dispatch .get (sv "/a") = .invoke 1 ∧
      (r.add .get (sv "/a/:") 2).1.dispatch .get (sv "/a") = .send .methodNotAllowed := by
  intro r
  exact ⟨rfl, rfl, rfl⟩

end Cppnet.Http.Router
