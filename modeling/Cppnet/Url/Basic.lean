import Cppnet.Bytes
import Cppnet.Lib.KeyedMap
import Cppnet.Lib.Loop

/-!
# `url`

`url.cpp`: taking urls apart (`parse`) and putting them together (`build`).

The parser goes through the input with a state for the component it is at, and
two positions, `start` and `end`; a turn (`UrlParser.turn`) is one round of its
loop. The states only go forward, and the positions only go back together with
them, so that the loop ends (`turn_measure`).

Decoding the percent signs of a component may leave the range of the string, an
exception in a function that is `noexcept`: the process terminates, which is
`none` in this model.
-/

namespace Cppnet

open Lib

/-- `url::query_values`. -/
abbrev QueryValues := KeyedMap (id : Bytes → Bytes) (List Bytes)

/-- `url::user_info`. -/
structure UserInfo where
  username : Bytes := []
  password : Bytes := []
  deriving DecidableEq

/-- `user_info::empty`. -/
def UserInfo.isEmpty (u : UserInfo) : Bool := u.username = [] ∧ u.password = []

/-- `url`. -/
structure Url where
  scheme : Bytes := []
  userinfo : UserInfo := {}
  host : Bytes := []
  port : Bytes := []
  path : Bytes := []
  query : QueryValues := .empty
  fragment : Bytes := []
  deriving DecidableEq

/-- `operator==`: the queries are compared as maps. -/
structure Url.Equal (lhs rhs : Url) : Prop where
  scheme : lhs.scheme = rhs.scheme
  userinfo : lhs.userinfo = rhs.userinfo
  host : lhs.host = rhs.host
  port : lhs.port = rhs.port
  path : lhs.path = rhs.path
  query : lhs.query.Same rhs.query
  fragment : lhs.fragment = rhs.fragment

/-- `url_parse_state`. -/
inductive UrlParseState
  | scheme
  | authority
  | userinfo
  | host
  | port
  | path
  | query
  | fragment
  | done
  deriving DecidableEq, Repr

/-- `url_parse_failure`. -/
structure UrlParseFailure where
  failedAt : UrlParseState
  index : ℕ
  deriving DecidableEq, Repr

namespace Url

/-! ## Decoding -/

/-- The loop of `decode`, with what is written so far. -/
def decodeLoop : ℕ → Bytes → Bytes → Option Bytes
  | 0, _, _ => none
  | fuel + 1, out, str =>
    match find str (ch '%') 0 with
    | none => some (out ++ str)
    | some idx =>
      let out :=
        match fromChars 8 16 (substr str (idx + 1) 2) with
        | .ok val => out ++ str.take idx ++ [UInt8.ofNat val]
        -- drops what is before an invalid value as well
        | .error _ => out
      if idx + 3 ≤ str.length then decodeLoop fuel out (str.drop (idx + 3)) else none

/-- `decode`. -/
def decode (str : Bytes) : Option Bytes := decodeLoop (str.length + 1) [] str

/-! ## Building -/

/-- The loops of `build` over the query, in the order given. -/
def buildQuery : Byte → List (Bytes × Bytes) → Bytes
  | _, [] => []
  | sep, (key, val) :: params => sep :: (key ++ ch '=' :: (val ++ buildQuery (ch '&') params))

/-- The parameters of a query, one for each value of a key. -/
def params (query : List (Bytes × List Bytes)) : List (Bytes × Bytes) :=
  query.flatMap fun param => param.2.map (param.1, ·)

/-- `build`, with the query in the order the map is iterated in. -/
def build (u : Url) (order : List (Bytes × List Bytes)) : Bytes :=
  (if u.scheme = [] then [] else u.scheme ++ sv "://") ++
    (if u.userinfo.isEmpty then []
      else u.userinfo.username ++ sv ":" ++ u.userinfo.password ++ sv "@") ++
    u.host ++ (if u.port = [] then [] else sv ":" ++ u.port) ++ u.path ++
    buildQuery (ch '?') (params order) ++ (if u.fragment = [] then [] else sv "#" ++ u.fragment)

end Url

/-! ## Parsing -/

/-- `url_parser`. -/
structure UrlParser where
  input : Bytes
  out : Url := {}
  state : UrlParseState := .scheme
  start : ℕ := 0
  stop : ℕ := 0
  deriving DecidableEq

namespace UrlParser

/-- `parse_scheme`. -/
def parseScheme (p : UrlParser) : UrlParser :=
  if p.input[p.stop]? ≠ some (ch ':') then
    let stop := p.stop + 1
    if stop = p.input.length then
      -- no scheme: back to the start, with a guess of what it is instead
      { p with
        stop := 0
        state :=
          if sv "//" <+: p.input then .authority
          else if p.input.head? = some (ch '/') then .path
          else .host }
    else { p with stop }
  else
    { p with
      out := { p.out with scheme := substr p.input p.start (p.stop - p.start) }
      start := p.stop + 1
      stop := p.stop + 1
      state := .authority }

/-- `parse_authority`. -/
def parseAuthority (p : UrlParser) : UrlParser :=
  let stop := p.stop + 1
  if stop < p.input.length ∧ p.input[p.start]? = some (ch '/') ∧
      p.input[stop]? = some (ch '/') then
    { p with state := .userinfo, start := stop + 1, stop := stop + 1 }
  -- no authority: what there is of the input is a path
  else { p with state := .path, stop := p.start }

/-- `parse_userinfo`. -/
def parseUserinfo (p : UrlParser) : UrlParser :=
  match find p.input (ch '@') p.start with
  | some idx =>
    let userinfo := substr p.input p.start (idx - p.start)
    let parsed : UserInfo :=
      match find userinfo (ch ':') 0 with
      | some split =>
        { username := userinfo.take split
          -- `idx` is a position in the input, not in the userinfo: at least as far as its end
          password := substr userinfo (split + 1) (idx - (split + 1)) }
      -- a username without a password
      | none => { p.out.userinfo with username := userinfo }
    { p with
      out := { p.out with userinfo := parsed }
      state := .host
      start := idx + 1
      stop := idx + 1 }
  | none => { p with state := .host }

/-- What follows a component ended by the delimiter `c` at `idx`. A slash is part
    of the path it starts. -/
def dispatch (p : UrlParser) (idx : ℕ) (c : Byte) : UrlParser :=
  if c = ch ':' then { p with state := .port, start := idx + 1, stop := idx + 1 }
  else if c = ch '/' then { p with state := .path, start := idx, stop := idx }
  else if c = ch '?' then { p with state := .query, start := idx + 1, stop := idx + 1 }
  else if c = ch '#' then { p with state := .fragment, start := idx + 1, stop := idx + 1 }
  else { p with start := idx + 1, stop := idx + 1 }

/-- The component up to one of the delimiters, or to the end. -/
def parseUpTo (delims : Bytes) (set : Url → Bytes → Url) (p : UrlParser) : UrlParser :=
  match findFirstOf p.input delims p.start with
  | some idx =>
    dispatch { p with out := set p.out (substr p.input p.start (idx - p.start)) } idx
      (p.input.getD idx 0)
  | none =>
    { p with out := set p.out (p.input.drop p.start), state := .done, stop := p.input.length }

/-- `parse_host`. -/
def parseHost : UrlParser → UrlParser :=
  parseUpTo (sv ":/?#") fun out host => { out with host }

/-- `parse_port`. -/
def parsePort : UrlParser → UrlParser :=
  parseUpTo (sv "/?#") fun out port => { out with port }

/-- `parse_path`. -/
def parsePath : UrlParser → UrlParser :=
  parseUpTo (sv "?#") fun out path => { out with path }

/-- The loop of `parse_query` over the parameters. -/
def queryLoop : ℕ → QueryValues → Bytes → Option QueryValues
  | 0, _, _ => none
  | fuel + 1, query, rawQuery =>
    if rawQuery = [] then some query
    else do
      let nextVar := find rawQuery (ch '&') 0
      let kv := nextVar.elim rawQuery rawQuery.take
      let query ←
        match find kv (ch '=') 0 with
        | some eqIdx => do
          let key ← Url.decode (kv.take eqIdx)
          let val ← Url.decode (kv.drop (eqIdx + 1))
          some (query.push key val)
        | none => do
          let key ← Url.decode kv
          -- a key without a value is a key with no values
          some (query.alter key [] id)
      match nextVar with
      | none => some query
      | some nextVar => queryLoop fuel query (rawQuery.drop (nextVar + 1))

/-- `parse_query`. -/
def parseQuery (p : UrlParser) : Option UrlParser := do
  let (rawQuery, p) :=
    match find p.input (ch '#') p.start with
    | some idx =>
      (substr p.input p.start (idx - p.start),
        { p with state := .fragment, start := idx + 1, stop := idx + 1 })
    | none => (p.input.drop p.start, { p with state := .done, stop := p.input.length })
  let query ← queryLoop (rawQuery.length + 1) p.out.query rawQuery
  some { p with out := { p.out with query } }

/-- `parse_fragment`: everything else. -/
def parseFragment (p : UrlParser) : UrlParser :=
  { p with out := { p.out with fragment := p.input.drop p.start }, state := .done }

/-- The turn of the parser in its state. -/
def step (p : UrlParser) : Option UrlParser :=
  match p.state with
  | .scheme => some p.parseScheme
  | .authority => some p.parseAuthority
  | .userinfo => some p.parseUserinfo
  | .host => some p.parseHost
  | .port => some p.parsePort
  | .path => some p.parsePath
  | .query => p.parseQuery
  | .fragment => some p.parseFragment
  | .done => some { p with stop := p.input.length }

/-- One turn of the loop of `parse`. -/
def turn (p : UrlParser) : Option (Turn UrlParser UrlParser) :=
  if p.stop < p.input.length then p.step.map .next else some (.done p)

/-- Decodes a component, unless it is empty. -/
def decodePart (s : Bytes) : Option Bytes := if s = [] then some [] else Url.decode s

/-- The end of `parse`: the components but the query are decoded. -/
def decodeParts (u : Url) : Option Url := do
  let scheme ← decodePart u.scheme
  let username ← decodePart u.userinfo.username
  let password ← decodePart u.userinfo.password
  let host ← decodePart u.host
  let port ← decodePart u.port
  let path ← decodePart u.path
  let fragment ← decodePart u.fragment
  some { u with scheme, userinfo := { username, password }, host, port, path, fragment }

end UrlParser

/-- How far behind the last state a state is. -/
def UrlParseState.rank : UrlParseState → ℕ
  | .scheme => 8
  | .authority => 7
  | .userinfo => 6
  | .host => 5
  | .port => 4
  | .path => 3
  | .query => 2
  | .fragment => 1
  | .done => 0

/-- `url::parse`. The states are gone through once, and in the first one every
    byte of the input at most once. -/
def Url.parse (s : Bytes) : Option (Except UrlParseFailure Url) := do
  let p ← Loop.run UrlParser.turn (9 * (s.length + 1)) { input := s }
  let out ← UrlParser.decodeParts p.out
  -- the state is looked at only now, when the components are decoded
  if p.state ≠ .done then some (.error ⟨p.state, p.stop⟩) else some (.ok out)

namespace UrlParser

/-- The measure of the loop: the states to come, then the bytes to come. -/
def measure (p : UrlParser) : ℕ := p.state.rank * (p.input.length + 1) + (p.input.length - p.stop)

theorem measure_lt_of_rank {p q : UrlParser} (hi : q.input = p.input)
    (hr : q.state.rank < p.state.rank) : q.measure < p.measure := by
  have h : (q.state.rank + 1) * (p.input.length + 1) ≤ p.state.rank * (p.input.length + 1) :=
    Nat.mul_le_mul_right _ hr
  rw [measure, measure, hi]
  rw [Nat.add_mul] at h
  omega

theorem measure_lt_of_state {p q : UrlParser} {a b : UrlParseState} (hi : q.input = p.input)
    (hp : p.state = a) (hq : q.state = b) (hab : b.rank < a.rank) : q.measure < p.measure :=
  measure_lt_of_rank hi (by rwa [hp, hq])

theorem dispatch_input (p : UrlParser) (idx : ℕ) (c : Byte) :
    (p.dispatch idx c).input = p.input := by
  rw [dispatch]
  split_ifs <;> rfl

/-- A component ends at one of the delimiters, or at the end. -/
theorem parseUpTo_cases (delims : Bytes) (set : Url → Bytes → Url) (p : UrlParser) :
    (p.parseUpTo delims set).input = p.input ∧ ((p.parseUpTo delims set).state = .done ∨
      ∃ q idx, ∃ c ∈ delims, p.parseUpTo delims set = dispatch q idx c) := by
  rw [parseUpTo]
  split
  · next idx hidx =>
    obtain ⟨i, hi, rfl⟩ := Option.map_eq_some_iff.1 hidx
    obtain ⟨hlt, hc, -⟩ := List.findIdx?_eq_some_iff_getElem.1 hi
    rw [List.getElem_drop, List.contains_iff_mem] at hc
    rw [List.length_drop] at hlt
    refine ⟨dispatch_input _ _ _, .inr ⟨_, _, _, ?_, rfl⟩⟩
    rwa [List.getD_eq_getElem?_getD, List.getElem?_eq_getElem (by omega), Option.getD_some]
  · exact ⟨rfl, .inl rfl⟩

/-- The delimiters, and the states they lead to. -/
def delimiters : List (Byte × UrlParseState) :=
  [(ch ':', .port), (ch '/', .path), (ch '?', .query), (ch '#', .fragment)]

theorem dispatch_state {c : Byte} {state : UrlParseState} (h : (c, state) ∈ delimiters)
    (p : UrlParser) (idx : ℕ) : (p.dispatch idx c).state = state := by
  simp only [delimiters, List.mem_cons, Prod.mk.injEq, List.not_mem_nil, or_false] at h
  rcases h with ⟨rfl, rfl⟩ | ⟨rfl, rfl⟩ | ⟨rfl, rfl⟩ | ⟨rfl, rfl⟩ <;> rfl

/-- The state behind a component is behind its own, if those its delimiters lead to
    are. -/
theorem measure_parseUpTo_lt {delims : Bytes} {a : UrlParseState} {p : UrlParser}
    (set : Url → Bytes → Url) (hp : p.state = a) (ha : UrlParseState.done.rank < a.rank)
    (h : ∀ c ∈ delims, ∃ d ∈ delimiters, d.1 = c ∧ d.2.rank < a.rank) :
    (p.parseUpTo delims set).measure < p.measure := by
  obtain ⟨hinput, hstate | ⟨q, idx, c, hc, heq⟩⟩ := parseUpTo_cases delims set p
  · exact measure_lt_of_state hinput hp hstate ha
  · obtain ⟨d, hd, rfl, hlt⟩ := h c hc
    exact measure_lt_of_state hinput hp (by rw [heq, dispatch_state hd]) hlt

theorem measure_parseScheme_lt {p : UrlParser} (hp : p.state = .scheme)
    (hlt : p.stop < p.input.length) : p.parseScheme.measure < p.measure := by
  rw [parseScheme]
  split
  · dsimp only
    split
    · refine measure_lt_of_state rfl hp rfl ?_
      split_ifs <;> (dsimp only; decide)
    · -- The state stays the same, and the position moves on.
      rw [measure, measure]
      dsimp only
      omega
  · exact measure_lt_of_state rfl hp rfl (by dsimp only; decide)

theorem measure_parseQuery_lt {p q : UrlParser} (hp : p.state = .query)
    (hq : p.parseQuery = some q) : q.measure < p.measure := by
  rw [parseQuery] at hq
  split at hq
  next hsplit =>
  obtain ⟨query, -, hq⟩ := Option.bind_eq_some_iff.1 hq
  cases hq
  split at hsplit <;> cases hsplit <;> exact measure_lt_of_state rfl hp rfl (by dsimp only; decide)

/-- Every turn of the loop decreases the measure. -/
theorem turn_measure {p q : UrlParser} (h : p.turn = some (.next q)) : q.measure < p.measure := by
  rw [turn] at h
  split at h
  case isFalse => cases h
  next hlt =>
  obtain ⟨q', hstep, hq⟩ := Option.map_eq_some_iff.1 h
  cases hq
  rw [step] at hstep
  split at hstep <;> rename_i hstate
  -- The query is the only component whose turn can fail: it is decoded on the way.
  case h_7 => exact measure_parseQuery_lt hstate hstep
  all_goals cases hstep
  · exact measure_parseScheme_lt hstate hlt
  · rw [parseAuthority]
    split <;> exact measure_lt_of_state rfl hstate rfl (by dsimp only; decide)
  · rw [parseUserinfo]
    split <;> exact measure_lt_of_state rfl hstate rfl (by dsimp only; decide)
  · exact measure_parseUpTo_lt _ hstate (by decide) (by decide)
  · exact measure_parseUpTo_lt _ hstate (by decide) (by decide)
  · exact measure_parseUpTo_lt _ hstate (by decide) (by decide)
  · exact measure_lt_of_state (b := .done) rfl hstate rfl (by decide)
  · rw [measure, measure]
    dsimp only
    omega

end UrlParser

end Cppnet
