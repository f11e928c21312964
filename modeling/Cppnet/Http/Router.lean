import Cppnet.Http.Message

/-!
# `router`

`http/router.cpp`: a tree with a child for each segment a route can go on with, and one for all segments,
the *wildcard*, whose name has to be the same in all routes through it. A route is added by walking along
it, which makes what is missing of the tree, and a request is handled by walking along its path.

The handlers are of any type; what is done with one that is found is to invoke it.
-/

namespace Cppnet.Http

open Util

/-- `router`. -/
inductive Router (η : Type*)
  | mk (methodHandlers : RequestMethod → Option η) (children : Bytes → Option (Router η))
    (wildcard : Option (Router η)) (wildcardName : Bytes)

/-- What `get_subrouter` throws. -/
inductive Router.RuntimeError
  | emptyName
  | mismatchedName
  deriving DecidableEq

/-- Its text. -/
def Router.RuntimeError.what : Router.RuntimeError → Bytes
  | emptyName => sv "wildcard name must not be empty"
  | mismatchedName => sv "mismatched wildcard name"

/-- What becomes of a request: a handler is invoked, or a response without content is sent. -/
inductive Router.Outcome (η : Type*)
  | invoke (handler : η)
  | send (status : Status)

/-- `status::NOT_FOUND`. -/
def Status.notFound : Status := 404

/-- `status::METHOD_NOT_ALLOWED`. -/
def Status.methodNotAllowed : Status := 405

namespace Router

variable {η : Type*}

/-- `method_handlers`. -/
def methodHandlers : Router η → RequestMethod → Option η
  | mk handlers _ _ _ => handlers

/-- `children`. -/
def children : Router η → Bytes → Option (Router η)
  | mk _ children _ _ => children

/-- `wildcard`. -/
def wildcard : Router η → Option (Router η)
  | mk _ _ wildcard _ => wildcard

/-- `wildcard_name`. -/
def wildcardName : Router η → Bytes
  | mk _ _ _ name => name

/-- A new one. -/
def empty : Router η := mk (fun _ => none) (fun _ => none) none []

/-- `method_handlers[method] = h`. -/
def setHandler (r : Router η) (method : RequestMethod) (h : η) : Router η :=
  mk (fun m => if m = method then some h else r.methodHandlers m) r.children r.wildcard r.wildcardName

/-- Another child for a segment. -/
def setChild (r : Router η) (part : Bytes) (child : Router η) : Router η :=
  mk r.methodHandlers (fun s => if s = part then some child else r.children s) r.wildcard r.wildcardName

/-- Another wildcard, with a name. -/
def setWildcard (r : Router η) (child : Router η) (name : Bytes) : Router η :=
  mk r.methodHandlers r.children (some child) name

/-- The segments of a route or a path, without one `/` in front. -/
def segments (route : Bytes) : List Bytes :=
  splitString (if route.head? = some (ch '/') then route.drop 1 else route) (ch '/') 0

/-- The loop of `get_subrouter`, and what is then done to the router it returns. The router that was there is
    changed up to where something is thrown. -/
def atSubrouter (f : Router η → Router η) : List Bytes → Router η → Router η × Option RuntimeError
  | [], current => (f current, none)
  | part :: parts, current =>
    if part.head? = some (ch ':') then
      -- A wildcard needs a name, the one that is there already if there is one.
      if part.length = 1 then (current, some .emptyName)
      else
        match current.wildcard with
        | none =>
          let (child, thrown) := atSubrouter f parts empty
          (current.setWildcard child (part.drop 1), thrown)
        | some child =>
          if current.wildcardName ≠ part.drop 1 then (current, some .mismatchedName)
          else
            let (child, thrown) := atSubrouter f parts child
            (current.setWildcard child current.wildcardName, thrown)
    else
      let (child, thrown) := atSubrouter f parts ((current.children part).getD empty)
      (current.setChild part child, thrown)

/-- `add`. -/
def add (r : Router η) (method : RequestMethod) (route : Bytes) (h : η) : Router η × Option RuntimeError :=
  atSubrouter (fun sub => sub.setHandler method h) (segments route) r

/-- The loop of `operator()`. -/
def walk : List Bytes → Router η → Option (Router η)
  | [], parent => some parent
  | part :: parts, parent =>
    -- The wildcard is only tried if there is no such child: there is no way back from one.
    match parent.children part with
    | some child => walk parts child
    | none =>
      match parent.wildcard with
      | some child => walk parts child
      | none => none

/-- `operator()`. -/
def dispatch (r : Router η) (method : RequestMethod) (path : Bytes) : Outcome η :=
  match walk (segments path) r with
  | none => .send .notFound
  | some parent =>
    match parent.methodHandlers method with
    | none => .send .methodNotAllowed
    | some h => .invoke h

end Router

end Cppnet.Http
