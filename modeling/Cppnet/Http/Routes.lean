import Cppnet.Http.Router
import Mathlib.Data.List.Forall2
import Mathlib.Data.List.Infix

/-!
# The routes of a `router`

What a router does, said by the list of the routes that were added to it. A request is taken segment by
segment along the *patterns* of the routes: first the literal segment, if there is a route that goes on with
it, and the wildcard if there is none (`follow`).

* `dispatch_prescribed`: so does the tree, whatever the order the routes were added in.
* `dispatch_complete`: this finds the routes that match the request, except those with a wildcard where
  another route, with the same start, has the segment of the request itself.
* `told_apart_iff`: when the answer that a method is not allowed is about a route, and not about a start of one.
-/

namespace Cppnet.Http.Router

open Util

variable {η : Type*}

/-! ## Patterns -/

/-- A segment of a pattern. -/
inductive Seg
  | literal (s : Bytes)
  | wildcard
  deriving DecidableEq

/-- The segments of a route, without the names of wildcards. -/
abbrev Pattern := List Seg

/-- A segment of a route. -/
def Seg.ofPart (part : Bytes) : Seg := if part.head? = some (ch ':') then .wildcard else .literal part

/-- The pattern of a route. -/
def pattern (route : Bytes) : Pattern := (segments route).map Seg.ofPart

/-- A route and its handler, as they are added. -/
structure Route (η : Type*) where
  method : RequestMethod
  route : Bytes
  handler : η

/-- Calls of `add`, all of which are successful. -/
def addAll (r : Router η) : List (Route η) → Option (Router η)
  | [] => some r
  | ρ :: routes =>
    match r.add ρ.method ρ.route ρ.handler with
    | (r, none) => r.addAll routes
    | (_, some _) => none

/-- Some route starts with a pattern. -/
def Starts (routes : List (Route η)) (p : Pattern) : Prop := ∃ ρ ∈ routes, p <+: pattern ρ.route

instance (routes : List (Route η)) (p : Pattern) : Decidable (Starts routes p) :=
  inferInstanceAs (Decidable (∃ ρ ∈ routes, p <+: pattern ρ.route))

/-- The pattern that segments are taken along, from `p` on. -/
def follow (routes : List (Route η)) : Pattern → List Bytes → Option Pattern
  | p, [] => some p
  | p, part :: parts =>
    if Starts routes (p ++ [.literal part]) then follow routes (p ++ [.literal part]) parts
    else if Starts routes (p ++ [.wildcard]) then follow routes (p ++ [.wildcard]) parts
    else none

/-- The handler that was added last for a method and a pattern. -/
def registered (routes : List (Route η)) (method : RequestMethod) (p : Pattern) : Option η :=
  (routes.reverse.find? fun ρ => ρ.method = method ∧ pattern ρ.route = p).map Route.handler

/-- What is to become of a request. -/
def prescribed (routes : List (Route η)) (method : RequestMethod) (path : Bytes) : Outcome η :=
  match follow routes [] (segments path) with
  | none => .send .notFound
  | some p =>
    match registered routes method p with
    | none => .send .methodNotAllowed
    | some h => .invoke h

/-! ## The tree -/

/-- The child for a segment of a pattern. -/
def child (r : Router η) : Seg → Option (Router η)
  | .literal s => r.children s
  | .wildcard => r.wildcard

/-- The router at a pattern. -/
def descend : Pattern → Router η → Option (Router η)
  | [], r => some r
  | seg :: p, r => (r.child seg).bind (descend p)

/-- The handler at a pattern. -/
def handlerAt (r : Router η) (p : Pattern) (method : RequestMethod) : Option η :=
  (descend p r).bind fun sub => sub.methodHandlers method

theorem descend_concat (p : Pattern) (seg : Seg) (r : Router η) :
    descend (p ++ [seg]) r = (descend p r).bind fun sub => sub.child seg := by
  induction p generalizing r with
  | nil =>
    rw [List.nil_append, descend, descend, Option.bind_some]
    cases r.child seg <;> rfl
  | cons seg' p ih =>
    rw [List.cons_append, descend, descend, Option.bind_assoc]
    exact Option.bind_congr fun sub _ => ih sub

theorem descend_empty (p : Pattern) : (descend p (empty : Router η)).isSome ↔ p = [] := by
  rcases p with _ | ⟨seg, p⟩
  · exact iff_of_true rfl rfl
  · have hchild : (empty : Router η).child seg = none := by cases seg <;> rfl
    rw [descend, hchild]
    simp

theorem handlerAt_empty (p : Pattern) (method : RequestMethod) :
    (empty : Router η).handlerAt p method = none := by
  rcases p with _ | ⟨seg, p⟩
  · rfl
  · have hchild : (empty : Router η).child seg = none := by cases seg <;> rfl
    rw [handlerAt, descend, hchild]
    rfl

/-- A child that is missing is as good as a new one, but for being there. -/
theorem descend_getD (r : Router η) (seg : Seg) (p : Pattern) :
    (descend p ((r.child seg).getD empty)).isSome ↔ (descend (seg :: p) r).isSome ∨ p = [] := by
  rw [descend]
  rcases r.child seg with _ | sub
  · simp [descend_empty]
  · rw [Option.getD_some, Option.bind_some, iff_self_or]
    rintro rfl
    rfl

theorem handlerAt_getD (r : Router η) (seg : Seg) (p : Pattern) (method : RequestMethod) :
    ((r.child seg).getD empty).handlerAt p method = r.handlerAt (seg :: p) method := by
  rw [handlerAt.eq_def r, descend]
  rcases r.child seg with _ | sub
  · exact handlerAt_empty p method
  · rfl

theorem child_setWildcard (r sub : Router η) (name : Bytes) (seg : Seg) :
    (r.setWildcard sub name).child seg = if seg = .wildcard then some sub else r.child seg := by
  cases seg <;> rfl

theorem child_setChild (r sub : Router η) (part : Bytes) (seg : Seg) :
    (r.setChild part sub).child seg = if seg = .literal part then some sub else r.child seg := by
  cases seg with
  | literal s => exact if_congr (by simp) rfl rfl
  | wildcard => rfl

/-- A segment is the name of a wildcard that is not one, or not the one of the wildcard that is there. -/
def Rejects (r : Router η) (part : Bytes) : Prop :=
  part.head? = some (ch ':') ∧ (part.length = 1 ∨ r.wildcard.isSome ∧ r.wildcardName ≠ part.drop 1)

/-- What `get_subrouter` does at the first segment: it throws there, or goes on. -/
theorem atSubrouter_cases (f : Router η → Router η) (part : Bytes) (parts : List Bytes) (r : Router η) :
    (r.Rejects part ∧ ∃ e, atSubrouter f (part :: parts) r = (r, some e)) ∨
      (¬r.Rejects part ∧ ∃ r' sub thrown, atSubrouter f (part :: parts) r = (r', thrown) ∧
        atSubrouter f parts ((r.child (.ofPart part)).getD empty) = (sub, thrown) ∧
        (∀ seg, r'.child seg = if seg = .ofPart part then some sub else r.child seg) ∧
        r'.methodHandlers = r.methodHandlers) := by
  rw [atSubrouter]
  by_cases hcolon : part.head? = some (ch ':')
  · rw [if_pos hcolon, show Seg.ofPart part = .wildcard from if_pos hcolon, child]
    by_cases hlen : part.length = 1
    · rw [if_pos hlen]
      exact .inl ⟨⟨hcolon, .inl hlen⟩, _, rfl⟩
    rw [if_neg hlen]
    rcases hw : r.wildcard with _ | w
    · -- A new wildcard.
      rcases hsub : atSubrouter f parts empty with ⟨sub, thrown⟩
      refine .inr ⟨?_, _, sub, thrown, rfl, hsub, child_setWildcard r sub _, rfl⟩
      rintro ⟨-, hlen' | ⟨hsome, -⟩⟩
      · exact hlen hlen'
      · rw [hw] at hsome
        cases hsome
    · -- The one that is there, if it has the name.
      rcases hsub : atSubrouter f parts w with ⟨sub, thrown⟩
      dsimp only
      by_cases hname : r.wildcardName ≠ part.drop 1
      · rw [if_pos hname]
        exact .inl ⟨⟨hcolon, .inr ⟨by rw [hw]; rfl, hname⟩⟩, _, rfl⟩
      · rw [if_neg hname, hsub]
        refine .inr ⟨?_, _, sub, thrown, rfl, hsub, child_setWildcard r sub _, rfl⟩
        rintro ⟨-, hlen' | ⟨-, hname'⟩⟩
        · exact hlen hlen'
        · exact hname hname'
  · rw [if_neg hcolon, show Seg.ofPart part = .literal part from if_neg hcolon, child]
    rcases hsub : atSubrouter f parts ((r.children part).getD empty) with ⟨sub, thrown⟩
    exact .inr ⟨fun h => hcolon h.1, _, sub, thrown, rfl, rfl, child_setChild r sub part, rfl⟩

/-- If nothing is thrown, it goes on. -/
theorem atSubrouter_cons {f : Router η → Router η} {part : Bytes} {parts : List Bytes} {r r' : Router η}
    (h : atSubrouter f (part :: parts) r = (r', none)) :
    ∃ sub, atSubrouter f parts ((r.child (.ofPart part)).getD empty) = (sub, none) ∧
      (∀ seg, r'.child seg = if seg = .ofPart part then some sub else r.child seg) ∧
      r'.methodHandlers = r.methodHandlers := by
  rcases atSubrouter_cases f part parts r with ⟨-, e, heq⟩ | ⟨-, r₁, sub, thrown, heq, hrest⟩
  · cases heq.symm.trans h
  · cases heq.symm.trans h
    exact ⟨sub, hrest⟩

/-- What a successful `add` does to the tree: there is a router at each start of the pattern, and one more
    handler. -/
theorem atSubrouter_spec {method : RequestMethod} {h : η} {parts : List Bytes} {r r' : Router η}
    (hadd : atSubrouter (fun sub => sub.setHandler method h) parts r = (r', none)) (p : Pattern) :
    ((descend p r').isSome ↔ (descend p r).isSome ∨ p <+: parts.map Seg.ofPart) ∧
      ∀ m, r'.handlerAt p m =
        if m = method ∧ p = parts.map Seg.ofPart then some h else r.handlerAt p m := by
  induction parts generalizing r r' p with
  | nil =>
    cases hadd
    rcases p with _ | ⟨seg, p⟩
    · refine ⟨by simp [descend], fun m => ?_⟩
      rw [handlerAt, handlerAt, descend, descend, Option.bind_some, Option.bind_some]
      exact if_congr (by simp) rfl rfl
    · -- At the end of the route, only a handler is changed.
      have hdescend : descend (seg :: p) (r.setHandler method h) = descend (seg :: p) r := by
        cases seg <;> rfl
      refine ⟨by simp [hdescend], fun m => ?_⟩
      rw [handlerAt, hdescend, ← handlerAt, if_neg (by simp)]
  | cons part parts ih =>
    obtain ⟨sub, hsub, hchild, hhandlers⟩ := atSubrouter_cons hadd
    rcases p with _ | ⟨seg, p⟩
    · refine ⟨by simp [descend], fun m => ?_⟩
      rw [handlerAt, handlerAt, descend, descend, Option.bind_some, Option.bind_some, hhandlers,
        if_neg (by simp)]
    · have hdescend : descend (seg :: p) r' =
          if seg = .ofPart part then descend p sub else descend (seg :: p) r := by
        rw [descend, hchild]
        split_ifs <;> rfl
      by_cases hseg : seg = .ofPart part
      · -- Along the route: by induction on the rest of it.
        subst hseg
        rw [if_pos rfl] at hdescend
        obtain ⟨hsome, hhandler⟩ := ih hsub p
        constructor
        · rw [hdescend, hsome, descend_getD, List.map_cons, List.cons_prefix_cons, or_assoc]
          refine or_congr_right ⟨?_, fun hp => .inr hp.2⟩
          rintro (rfl | hp)
          · exact ⟨rfl, List.nil_prefix⟩
          · exact ⟨rfl, hp⟩
        · intro m
          rw [handlerAt.eq_def r', hdescend, ← handlerAt, hhandler, handlerAt_getD]
          exact if_congr (by simp) rfl rfl
      · -- Next to the route: nothing changes.
        rw [if_neg hseg] at hdescend
        constructor
        · rw [hdescend, List.map_cons, List.cons_prefix_cons]
          simp [hseg]
        · intro m
          rw [handlerAt, hdescend, ← handlerAt, if_neg (by simp [hseg])]

/-- The tree of routes: there is a router at each of their starts, with the handlers that were added there. -/
structure Holds (r : Router η) (routes : List (Route η)) : Prop where
  nodes : ∀ p, (descend p r).isSome ↔ p = [] ∨ Starts routes p
  handlers : ∀ p m, r.handlerAt p m = registered routes m p

theorem holds_empty : Holds (empty : Router η) [] where
  nodes p := by
    rw [descend_empty]
    simp [Starts]
  handlers p m := handlerAt_empty p m

theorem registered_concat (routes : List (Route η)) (ρ : Route η) (m : RequestMethod) (p : Pattern) :
    registered (routes ++ [ρ]) m p =
      if m = ρ.method ∧ p = pattern ρ.route then some ρ.handler else registered routes m p := by
  rw [registered, List.reverse_append, List.reverse_singleton, List.singleton_append]
  split_ifs with heq
  · rw [List.find?_cons_of_pos (by simp [heq]), Option.map_some]
  · rw [List.find?_cons_of_neg, registered]
    rw [decide_eq_true_eq]
    exact fun h => heq ⟨h.1.symm, h.2.symm⟩

theorem Holds.add {r r' : Router η} {routes : List (Route η)} {ρ : Route η} (h : Holds r routes)
    (hadd : r.add ρ.method ρ.route ρ.handler = (r', none)) : Holds r' (routes ++ [ρ]) where
  nodes p := by
    have hstarts : Starts (routes ++ [ρ]) p ↔ Starts routes p ∨ p <+: pattern ρ.route := by
      simp [Starts, or_and_right, exists_or]
    rw [(atSubrouter_spec hadd p).1, h.nodes, hstarts, or_assoc, pattern]
  handlers p m := by
    rw [(atSubrouter_spec hadd p).2, registered_concat, h.handlers, pattern]

/-- So does a run of successful calls of `add`. -/
theorem Holds.addAll {r r' : Router η} {routes routes' : List (Route η)} (h : Holds r routes)
    (hadd : r.addAll routes' = some r') : Holds r' (routes ++ routes') := by
  induction routes' generalizing r routes with
  | nil =>
    cases hadd
    rwa [List.append_nil]
  | cons ρ routes' ih =>
    rcases hres : r.add ρ.method ρ.route ρ.handler with ⟨r₁, _ | thrown⟩
    · rw [Router.addAll, hres] at hadd
      have h₁ := ih (h.add hres) hadd
      rwa [List.append_assoc, List.singleton_append] at h₁
    · rw [Router.addAll, hres] at hadd
      cases hadd

/-- The loop of `operator()` is at the router of the pattern that is followed. -/
theorem Holds.walk {r sub : Router η} {routes : List (Route η)} (h : Holds r routes) {p : Pattern}
    (hp : descend p r = some sub) (parts : List Bytes) :
    (walk parts sub = none ∧ follow routes p parts = none) ∨
      ∃ p' sub', walk parts sub = some sub' ∧ follow routes p parts = some p' ∧ descend p' r = some sub' := by
  induction parts generalizing p sub with
  | nil => exact .inr ⟨p, sub, rfl, rfl, hp⟩
  | cons part parts ih =>
    -- The children of a router say which routes go on from its pattern, and are at theirs.
    have hchild : ∀ seg, (sub.child seg).isSome ↔ Starts routes (p ++ [seg]) := by
      intro seg
      have hnode := h.nodes (p ++ [seg])
      rw [descend_concat, hp, Option.bind_some] at hnode
      simpa using hnode
    have hnext : ∀ seg sub', sub.child seg = some sub' → descend (p ++ [seg]) r = some sub' := by
      intro seg sub' hsub'
      rw [descend_concat, hp, Option.bind_some, hsub']
    rw [Router.walk, follow]
    rcases hlit : sub.children part with _ | sub'
    · have hno : ¬Starts routes (p ++ [.literal part]) := by
        rw [← hchild, child, hlit]
        simp
      rw [if_neg hno]
      rcases hwild : sub.wildcard with _ | sub'
      · have hno' : ¬Starts routes (p ++ [.wildcard]) := by
          rw [← hchild, child, hwild]
          simp
        rw [if_neg hno']
        exact .inl ⟨rfl, rfl⟩
      · have hyes : Starts routes (p ++ [.wildcard]) := by
          rw [← hchild, child, hwild]
          rfl
        rw [if_pos hyes]
        exact ih (hnext .wildcard sub' hwild)
    · have hyes : Starts routes (p ++ [.literal part]) := by
        rw [← hchild, child, hlit]
        rfl
      rw [if_pos hyes]
      exact ih (hnext (.literal part) sub' hlit)

theorem Holds.dispatch_eq {r : Router η} {routes : List (Route η)} (h : Holds r routes)
    (method : RequestMethod) (path : Bytes) : r.dispatch method path = prescribed routes method path := by
  rw [dispatch, prescribed]
  rcases h.walk (p := []) rfl (segments path) with ⟨hwalk, hfollow⟩ | ⟨p, sub, hwalk, hfollow, hsub⟩
  · rw [hwalk, hfollow]
  · have hhandler := h.handlers p method
    rw [handlerAt, hsub, Option.bind_some] at hhandler
    rw [hwalk, hfollow]
    rcases hregistered : registered routes method p with _ | handler
    · rw [hregistered] at hhandler
      simp only [hhandler, hregistered]
    · rw [hregistered] at hhandler
      simp only [hhandler, hregistered]

/-- The tree after successful calls of `add`. -/
theorem holds_of_addAll {r : Router η} {routes : List (Route η)} (h : empty.addAll routes = some r) :
    Holds r routes :=
  holds_empty.addAll h

/-! ## The order of the routes -/

/-- The routes of a method and a pattern. -/
def sameRoute (routes : List (Route η)) (method : RequestMethod) (p : Pattern) : List (Route η) :=
  routes.filter fun ρ => ρ.method = method ∧ pattern ρ.route = p

theorem prescribed_congr {routes routes' : List (Route η)}
    (h : ∀ m p, sameRoute routes m p = sameRoute routes' m p) (method : RequestMethod) (path : Bytes) :
    prescribed routes method path = prescribed routes' method path := by
  -- The lists have the same routes, and those of a method and a pattern in the same order.
  have hmem : ∀ ρ, ρ ∈ routes ↔ ρ ∈ routes' := by
    intro ρ
    have hρ : ∀ l : List (Route η), ρ ∈ sameRoute l ρ.method (pattern ρ.route) ↔ ρ ∈ l := by
      simp [sameRoute]
    rw [← hρ, h, hρ]
  have hstarts : ∀ p, Starts routes p ↔ Starts routes' p := by
    intro p
    simp only [Starts, hmem]
  have hfollow : ∀ parts p, follow routes p parts = follow routes' p parts := by
    intro parts
    induction parts with
    | nil => exact fun p => rfl
    | cons part parts ih =>
      intro p
      simp only [follow, hstarts, ih]
  have hregistered : ∀ m p, registered routes m p = registered routes' m p := by
    intro m p
    have hlast : ∀ l : List (Route η), registered l m p = (sameRoute l m p).getLast?.map Route.handler := by
      intro l
      rw [registered, ← List.head?_filter, List.filter_reverse, List.head?_reverse, sameRoute]
    rw [hlast, hlast, h]
  rw [prescribed, prescribed, hfollow]
  simp only [hregistered]

/-- After any successful calls of `add`, a request is handled as prescribed by the routes, in whatever order
    those for different methods or patterns were added. -/
theorem dispatch_prescribed {routes : List (Route η)} {r : Router η} (h : empty.addAll routes = some r) :
    (∀ method path, r.dispatch method path = prescribed routes method path) ∧
      ∀ routes' r', empty.addAll routes' = some r' →
        (∀ m p, sameRoute routes m p = sameRoute routes' m p) →
        ∀ method path, r.dispatch method path = r'.dispatch method path := by
  have hr : ∀ method path, r.dispatch method path = prescribed routes method path :=
    (holds_of_addAll h).dispatch_eq
  refine ⟨hr, fun routes' r' h' hsame method path => ?_⟩
  rw [hr, prescribed_congr hsame, ← (holds_of_addAll h').dispatch_eq]

/-- Two routes, one of them with a wildcard where the other one has a segment. -/
def overlapping : List (Route ℕ) := [⟨.get, sv "/a/b", 1⟩, ⟨.get, sv "/:x/c", 2⟩]

theorem dispatch_prescribed_two : ∃ r, empty.addAll overlapping = some r ∧
    r.dispatch .get (sv "/d/c") = .invoke 2 := by
  have h : ∃ r, empty.addAll overlapping = some r := ⟨_, rfl⟩
  obtain ⟨r, hr⟩ := h
  refine ⟨r, hr, ?_⟩
  rw [(dispatch_prescribed hr).1]
  rfl

/-! ## Matching routes -/

/-- A pattern matches segments. -/
def Matches (q : Pattern) (parts : List Bytes) : Prop :=
  List.Forall₂ (fun seg part => seg = .wildcard ∨ seg = .literal part) q parts

/-- Behind `p`, no other route has a segment itself where `q` has a wildcard. -/
def Unshadowed (routes : List (Route η)) (p q : Pattern) (parts : List Bytes) : Prop :=
  ∀ a part, a ++ [.wildcard] <+: q → parts[a.length]? = some part → ¬Starts routes (p ++ a ++ [.literal part])

theorem unshadowed_cons {routes : List (Route η)} {p q : Pattern} {seg : Seg} {part : Bytes}
    {parts : List Bytes} :
    Unshadowed routes p (seg :: q) (part :: parts) ↔
      (seg = .wildcard → ¬Starts routes (p ++ [.literal part])) ∧ Unshadowed routes (p ++ [seg]) q parts := by
  constructor
  · intro h
    constructor
    · rintro rfl
      have h₀ := h [] part (by simp) rfl
      rwa [List.append_nil] at h₀
    · intro a part' ha hpart'
      have hcons := h (seg :: a) part' (by simpa using ha) (by simpa using hpart')
      simpa using hcons
  · rintro ⟨hseg, h⟩ a part' ha hpart'
    rcases a with _ | ⟨seg', a⟩
    · rw [List.nil_append, List.cons_prefix_cons] at ha
      cases hpart'
      rw [List.append_nil]
      exact hseg ha.1.symm
    · rw [List.cons_append, List.cons_prefix_cons] at ha
      obtain ⟨rfl, ha⟩ := ha
      have hrest := h a part' ha (by simpa using hpart')
      simpa using hrest

theorem Starts.of_prefix {routes : List (Route η)} {p q : Pattern} (h : Starts routes q) (hp : p <+: q) :
    Starts routes p := by
  obtain ⟨ρ, hρ, hq⟩ := h
  exact ⟨ρ, hρ, hp.trans hq⟩

/-- The pattern that is followed matches, and is not shadowed. -/
theorem of_follow {routes : List (Route η)} {p p' : Pattern} {parts : List Bytes}
    (h : follow routes p parts = some p') :
    ∃ q, p' = p ++ q ∧ Matches q parts ∧ Unshadowed routes p q parts := by
  induction parts generalizing p with
  | nil =>
    cases h
    refine ⟨[], (List.append_nil _).symm, .nil, fun a part ha => ?_⟩
    simp at ha
  | cons part parts ih =>
    rw [follow] at h
    split_ifs at h with hlit hwild
    · obtain ⟨q, rfl, hmatches, hunshadowed⟩ := ih h
      refine ⟨.literal part :: q, by simp, .cons (.inr rfl) hmatches, unshadowed_cons.2 ⟨?_, hunshadowed⟩⟩
      intro hseg
      cases hseg
    · obtain ⟨q, rfl, hmatches, hunshadowed⟩ := ih h
      exact ⟨.wildcard :: q, by simp, .cons (.inl rfl) hmatches, unshadowed_cons.2 ⟨fun _ => hlit, hunshadowed⟩⟩

/-- The start of a route that matches and is not shadowed is followed. -/
theorem follow_eq {routes : List (Route η)} {p q : Pattern} {parts : List Bytes} (hmatches : Matches q parts)
    (hunshadowed : Unshadowed routes p q parts) (hstarts : Starts routes (p ++ q)) :
    follow routes p parts = some (p ++ q) := by
  induction hmatches generalizing p with
  | nil => rw [follow, List.append_nil]
  | @cons seg part q parts hseg _ ih =>
    rw [unshadowed_cons] at hunshadowed
    rw [List.append_cons] at hstarts ⊢
    have hnext : Starts routes (p ++ [seg]) := hstarts.of_prefix (List.prefix_append _ _)
    rw [follow]
    rcases hseg with rfl | rfl
    · rw [if_neg (hunshadowed.1 rfl), if_pos hnext]
      exact ih hunshadowed.2 hstarts
    · rw [if_pos hnext]
      exact ih hunshadowed.2 hstarts

theorem registered_eq_some {routes : List (Route η)} {method : RequestMethod} {p : Pattern} {handler : η}
    (h : registered routes method p = some handler) :
    ∃ ρ ∈ routes, ρ.method = method ∧ pattern ρ.route = p ∧ ρ.handler = handler := by
  obtain ⟨ρ, hfind, rfl⟩ := Option.map_eq_some_iff.1 h
  have hρ := List.find?_some hfind
  rw [decide_eq_true_eq] at hρ
  exact ⟨ρ, List.mem_reverse.1 (List.mem_of_find?_eq_some hfind), hρ.1, hρ.2, rfl⟩

theorem exists_registered {routes : List (Route η)} {ρ : Route η} (hρ : ρ ∈ routes) :
    ∃ handler, registered routes ρ.method (pattern ρ.route) = some handler := by
  rcases hfind : registered routes ρ.method (pattern ρ.route) with _ | handler
  · rw [registered, Option.map_eq_none_iff, List.find?_eq_none] at hfind
    exact absurd (by simp) (hfind ρ (List.mem_reverse.2 hρ))
  · exact ⟨handler, rfl⟩

/-- A request for a route that matches it, and is not shadowed, is handled by the handler that was added last
    for that pattern; and no other request is handled. -/
theorem dispatch_complete {routes : List (Route η)} {r : Router η} (h : empty.addAll routes = some r)
    (method : RequestMethod) (path : Bytes) :
    (∀ ρ ∈ routes, ρ.method = method → Matches (pattern ρ.route) (segments path) →
      Unshadowed routes [] (pattern ρ.route) (segments path) →
      ∃ handler, registered routes method (pattern ρ.route) = some handler ∧
        r.dispatch method path = .invoke handler) ∧
    ∀ handler, r.dispatch method path = .invoke handler →
      ∃ ρ ∈ routes, ρ.method = method ∧ ρ.handler = handler ∧ Matches (pattern ρ.route) (segments path) ∧
        Unshadowed routes [] (pattern ρ.route) (segments path) := by
  rw [(holds_of_addAll h).dispatch_eq, prescribed]
  constructor
  · -- The route that is not shadowed is the one that is followed.
    rintro ρ hρ rfl hmatches hunshadowed
    obtain ⟨handler, hhandler⟩ := exists_registered hρ
    have hfollow := follow_eq hmatches hunshadowed ⟨ρ, hρ, List.prefix_rfl⟩
    rw [List.nil_append] at hfollow
    refine ⟨handler, hhandler, ?_⟩
    rw [hfollow]
    dsimp only
    rw [hhandler]
  · intro handler hinvoke
    rcases hfollow : follow routes [] (segments path) with _ | p
    · rw [hfollow] at hinvoke
      cases hinvoke
    · rw [hfollow] at hinvoke
      -- The handler is one of a route with the pattern that was followed.
      obtain ⟨q, hq, hmatches, hunshadowed⟩ := of_follow hfollow
      rw [List.nil_append] at hq
      subst hq
      dsimp only at hinvoke
      rcases hhandler : registered routes method p with _ | handler'
      · rw [hhandler] at hinvoke
        cases hinvoke
      · rw [hhandler] at hinvoke
        cases hinvoke
        obtain ⟨ρ, hρ, hmethod, rfl, hhandler'⟩ := registered_eq_some hhandler
        exact ⟨ρ, hρ, hmethod, hhandler', hmatches, hunshadowed⟩

theorem dispatch_complete_two : ∃ r, empty.addAll overlapping = some r ∧
    ∃ handler, r.dispatch .get (sv "/a/b") = .invoke handler := by
  have h : ∃ r, empty.addAll overlapping = some r := ⟨_, rfl⟩
  obtain ⟨r, hr⟩ := h
  obtain ⟨handler, -, hdispatch⟩ := (dispatch_complete hr .get (sv "/a/b")).1 ⟨.get, sv "/a/b", 1⟩
    List.mem_cons_self rfl (.cons (.inr rfl) (.cons (.inr rfl) .nil)) (fun a part ha => by
      have hmem := ha.subset (List.mem_append_right a (List.mem_singleton_self Seg.wildcard))
      exact absurd hmem (by decide))
  exact ⟨r, hr, handler, hdispatch⟩

/-- The second route matches the request, but the first one is followed. -/
theorem dispatch_shadowed : ∃ r, empty.addAll overlapping = some r ∧
    (∃ ρ ∈ overlapping, ρ.method = .get ∧ Matches (pattern ρ.route) (segments (sv "/a/c"))) ∧
    r.dispatch .get (sv "/a/c") = .send .notFound := by
  refine ⟨_, rfl, ⟨⟨.get, sv "/:x/c", 2⟩, ?_, rfl, .cons (.inl rfl) (.cons (.inr rfl) .nil)⟩, rfl⟩
  exact List.mem_cons_of_mem _ List.mem_cons_self

/-! ## No method, or no route -/

/-- The answers that a request is not for any route, and that a route is not for the method, are told apart. -/
structure ToldApart (routes : List (Route η)) (r : Router η) (method : RequestMethod) (path : Bytes) : Prop where
  notAllowed : r.dispatch method path = .send .methodNotAllowed →
    ∃ ρ ∈ routes, ρ.method ≠ method ∧ Matches (pattern ρ.route) (segments path)
  notFound : (∀ ρ ∈ routes, ¬Matches (pattern ρ.route) (segments path)) →
    r.dispatch method path = .send .notFound

/-- The start of a route that the request matches is a route of its own, or else another route that it matches is
    for another method. -/
def EndsOrOther (routes : List (Route η)) (method : RequestMethod) (parts : List Bytes) : Prop :=
  ∀ p, Starts routes p → Matches p parts → Unshadowed routes [] p parts →
    (∃ ρ ∈ routes, pattern ρ.route = p) ∨ ∃ ρ ∈ routes, ρ.method ≠ method ∧ Matches (pattern ρ.route) parts

/-- What is followed is the start of a route. -/
theorem starts_of_follow {routes : List (Route η)} {p p' : Pattern} {parts : List Bytes}
    (hp : p = [] ∨ Starts routes p) (h : follow routes p parts = some p') : p' = [] ∨ Starts routes p' := by
  induction parts generalizing p with
  | nil =>
    cases h
    exact hp
  | cons part parts ih =>
    rw [follow] at h
    split_ifs at h with hlit hwild
    · exact ih (.inr hlit) h
    · exact ih (.inr hwild) h

/-- The two answers are told apart if and only if the request does not end at a start of a route that is no route
    itself, or another route that it matches is for another method. -/
theorem told_apart_iff {routes : List (Route η)} {r : Router η} (h : empty.addAll routes = some r)
    (method : RequestMethod) (path : Bytes) :
    ToldApart routes r method path ↔ EndsOrOther routes method (segments path) := by
  have hdispatch := (holds_of_addAll h).dispatch_eq method path
  rw [prescribed] at hdispatch
  constructor
  · intro htold p hstarts hmatches hunshadowed
    have hfollow := follow_eq hmatches hunshadowed hstarts
    rw [List.nil_append] at hfollow
    rw [hfollow] at hdispatch
    dsimp only at hdispatch
    rcases hregistered : registered routes method p with _ | handler
    · rw [hregistered] at hdispatch
      exact .inr (htold.notAllowed hdispatch)
    · obtain ⟨ρ, hρ, -, hpattern, -⟩ := registered_eq_some hregistered
      exact .inl ⟨ρ, hρ, hpattern⟩
  · intro hends
    rcases hfollow : follow routes [] (segments path) with _ | p
    · -- Nothing is found, and that is what is answered.
      rw [hfollow] at hdispatch
      refine ⟨fun hallowed => ?_, fun _ => hdispatch⟩
      cases hdispatch.symm.trans hallowed
    · obtain ⟨q, hq, hmatches, hunshadowed⟩ := of_follow hfollow
      rw [List.nil_append] at hq
      subst hq
      have hstarts : Starts routes p := by
        refine (starts_of_follow (.inl rfl) hfollow).resolve_left ?_
        rintro rfl
        -- There is at least one segment in a path.
        have hnil : segments path = [] := List.eq_nil_of_length_eq_zero hmatches.length_eq.symm
        rw [segments, splitString_eq _ _ (Nat.zero_le _)] at hnil
        exact List.splitOn_ne_nil _ _ hnil
      rw [hfollow] at hdispatch
      dsimp only at hdispatch
      rcases hends p hstarts hmatches hunshadowed with ⟨ρ, hρ, rfl⟩ | hother
      · refine ⟨fun hallowed => ⟨ρ, hρ, ?_, hmatches⟩, fun hnone => absurd hmatches (hnone ρ hρ)⟩
        -- A route for the method itself would be taken.
        rintro rfl
        obtain ⟨handler, hhandler⟩ := exists_registered hρ
        rw [hhandler] at hdispatch
        cases hdispatch.symm.trans hallowed
      · refine ⟨fun _ => hother, fun hnone => ?_⟩
        obtain ⟨ρ, hρ, -, hmatches'⟩ := hother
        exact absurd hmatches' (hnone ρ hρ)

/-- A request for a route of another method. -/
theorem told_apart_iff_other : ∃ r, empty.addAll overlapping = some r ∧
    ToldApart overlapping r .post (sv "/a/b") := by
  have h : ∃ r, empty.addAll overlapping = some r := ⟨_, rfl⟩
  obtain ⟨r, hr⟩ := h
  refine ⟨r, hr, (told_apart_iff hr .post (sv "/a/b")).2 fun p _ _ _ => .inr ?_⟩
  exact ⟨⟨.get, sv "/a/b", 1⟩, List.mem_cons_self, nofun, .cons (.inr rfl) (.cons (.inr rfl) .nil)⟩

/-- No route matches a request that ends in the middle of one, but the answer is that the method is not allowed. -/
theorem not_told_apart : ∃ r, empty.addAll overlapping = some r ∧
    r.dispatch .get (sv "/a") = .send .methodNotAllowed ∧ ¬ToldApart overlapping r .get (sv "/a") := by
  refine ⟨_, rfl, rfl, fun htold => ?_⟩
  have hlen : ∀ ρ ∈ overlapping, (pattern ρ.route).length ≠ (segments (sv "/a")).length := by
    decide +kernel
  cases htold.notFound fun ρ hρ hmatches => hlen ρ hρ hmatches.length_eq

end Cppnet.Http.Router
