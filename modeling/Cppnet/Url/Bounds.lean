import Cppnet.Url.Basic

/-!
# The positions of `url_parser`

The loop of `url_parser::parse` ends on every input, and it stays in the input (`parse_in_range`): the
positions are no further than its end at every turn, they are the same one in every state but the first, and
whatever a turn reads by them is there (`accesses`).

This is about taking the input apart. What becomes of the query is left open, by a function for the loop of
`parse_query` (`stepWith`): `decode` may throw there, and is looked at on its own.
-/

namespace Cppnet

open Lib

/-- What a function reads of its input by a position: a byte, or what is from there on. -/
inductive Access
  | at (pos : ℕ)
  | substr (pos : ℕ)
  deriving DecidableEq

/-- The position is one of a string of the given length. -/
def Access.Valid (length : ℕ) : Access → Prop
  | .at pos => pos < length
  | .substr pos => pos ≤ length

namespace UrlParser

/-- What `parse_host`, `parse_port` and `parse_path` read. -/
def accessesUpTo (delims : Bytes) (p : UrlParser) : List Access :=
  match findFirstOf p.input delims p.start with
  | some idx => [.substr p.start, .at idx]
  | none => [.substr p.start]

/-- What a turn reads of the input, in this order. -/
def accesses (p : UrlParser) : List Access :=
  match p.state with
  | .scheme =>
    .at p.stop ::
      if p.input[p.stop]? ≠ some (ch ':') then
        -- `front` is looked at behind `starts_with`, which reads no further than the end
        if p.stop + 1 = p.input.length ∧ ¬sv "//" <+: p.input then [.at 0] else []
      else [.substr p.start]
  | .authority =>
    if p.stop + 1 < p.input.length then
      .at p.start :: if p.input[p.start]? = some (ch '/') then [.at (p.stop + 1)] else []
    else []
  | .userinfo =>
    match find p.input (ch '@') p.start with
    | some _ => [.substr p.start]
    | none => []
  | .host => p.accessesUpTo (sv ":/?#")
  | .port => p.accessesUpTo (sv "/?#")
  | .path => p.accessesUpTo (sv "?#")
  | .query => [.substr p.start]
  | .fragment => [.substr p.start]
  | .done => []

/-- `parse_query`, with a function for what its loop makes of the query. -/
def parseQueryWith (read : QueryValues → Bytes → QueryValues) (p : UrlParser) : UrlParser :=
  match find p.input (ch '#') p.start with
  | some idx =>
    { p with
      out := { p.out with query := read p.out.query (substr p.input p.start (idx - p.start)) }
      state := .fragment
      start := idx + 1
      stop := idx + 1 }
  | none =>
    { p with
      out := { p.out with query := read p.out.query (p.input.drop p.start) }
      state := .done
      stop := p.input.length }

/-- The turn of the parser in its state, with such a function. -/
def stepWith (read : QueryValues → Bytes → QueryValues) (p : UrlParser) : UrlParser :=
  match p.state with
  | .scheme => p.parseScheme
  | .authority => p.parseAuthority
  | .userinfo => p.parseUserinfo
  | .host => p.parseHost
  | .port => p.parsePort
  | .path => p.parsePath
  | .query => p.parseQueryWith read
  | .fragment => p.parseFragment
  | .done => { p with stop := p.input.length }

/-- One turn of the loop of `parse`, with such a function. -/
def turnWith (read : QueryValues → Bytes → QueryValues) (p : UrlParser) :
    Option (Turn UrlParser UrlParser) :=
  if p.stop < p.input.length then some (.next (p.stepWith read)) else some (.done p)

/-- What the loop of `parse_query` makes of a query, where `decode` returns. -/
def readQuery (query : QueryValues) (rawQuery : Bytes) : QueryValues :=
  (queryLoop (rawQuery.length + 1) query rawQuery).getD query

/-! ## The turns of `parse` -/

section Turns

variable {p q : UrlParser}

theorem readQuery_eq {query query' : QueryValues} {rawQuery : Bytes}
    (h : queryLoop (rawQuery.length + 1) query rawQuery = some query') : readQuery query rawQuery = query' := by
  rw [readQuery, h, Option.getD_some]

theorem parseQuery_eq (h : p.parseQuery = some q) : q = p.parseQueryWith readQuery := by
  rw [parseQuery] at h
  rw [parseQueryWith]
  rcases hfind : find p.input (ch '#') p.start with _ | idx
  all_goals
    rw [hfind] at h
    obtain ⟨query, hquery, hq⟩ := Option.bind_eq_some_iff.1 h
    cases hq
    dsimp only
    rw [readQuery_eq hquery]

/-- Only the turn for the query depends on the function. -/
theorem step_of_ne (hne : p.state ≠ .query) (read : QueryValues → Bytes → QueryValues) :
    p.step = some (p.stepWith read) := by
  rw [step, stepWith]
  cases hstate : p.state <;> first | rfl | exact absurd hstate hne

/-- Where the query is decoded, a turn is one with its values. -/
theorem turn_eq (h : p.turn = some (.next q)) : p.turnWith readQuery = some (.next q) := by
  rw [turn] at h
  rw [turnWith]
  by_cases hlt : p.stop < p.input.length
  swap
  · rw [if_neg hlt] at h
    cases h
  rw [if_pos hlt] at h ⊢
  obtain ⟨q', hstep, hq⟩ := Option.map_eq_some_iff.1 h
  cases hq
  by_cases hquery : p.state = .query
  · have hparse : p.parseQuery = some q := by
      simpa only [step, hquery] using hstep
    have hwith : p.stepWith readQuery = p.parseQueryWith readQuery := by
      simp only [stepWith, hquery]
    rw [hwith, ← parseQuery_eq hparse]
  · rw [step_of_ne hquery readQuery] at hstep
    rw [Option.some.inj hstep]

theorem measure_parseQueryWith_lt (read : QueryValues → Bytes → QueryValues) (hp : p.state = .query) :
    (p.parseQueryWith read).measure < p.measure := by
  rw [parseQueryWith]
  split <;> exact measure_lt_of_state rfl hp rfl (by dsimp only; decide)

theorem stepWith_input (read : QueryValues → Bytes → QueryValues) (p : UrlParser) :
    (p.stepWith read).input = p.input := by
  rw [stepWith]
  split
  · rw [parseScheme]
    dsimp only
    split_ifs <;> rfl
  · rw [parseAuthority]
    split_ifs <;> rfl
  · rw [parseUserinfo]
    split <;> rfl
  · exact (parseUpTo_cases _ _ p).1
  · exact (parseUpTo_cases _ _ p).1
  · exact (parseUpTo_cases _ _ p).1
  · rw [parseQueryWith]
    split <;> rfl
  · rfl
  · rfl

/-- Every turn but the last decreases the measure. -/
theorem measure_stepWith_lt (read : QueryValues → Bytes → QueryValues) (hlt : p.stop < p.input.length) :
    (p.stepWith read).measure < p.measure := by
  by_cases hquery : p.state = .query
  · rw [stepWith, hquery]
    exact measure_parseQueryWith_lt read hquery
  · -- The turn of another state is that of `parse`.
    refine turn_measure ?_
    rw [turn, if_pos hlt, step_of_ne hquery read]
    rfl

end Turns

/-! ## Where the positions are -/

theorem findFirst_lt {f : Byte → Bool} {s : Bytes} {pos idx : ℕ} (h : findFirst f s pos = some idx) :
    idx < s.length := by
  obtain ⟨i, hi, rfl⟩ := Option.map_eq_some_iff.1 h
  obtain ⟨hlt, -⟩ := List.findIdx?_eq_some_iff_getElem.1 hi
  rw [List.length_drop] at hlt
  omega

/-- The positions are in the input, and the same one behind the first state. Only where the loop is over may
    `start` have been left behind. -/
structure InRange (p : UrlParser) : Prop where
  start_le : p.start ≤ p.input.length
  stop_le : p.stop ≤ p.input.length
  scheme : p.state = .scheme → p.start = 0
  eq : p.state ≠ .scheme → p.state ≠ .done ∨ p.stop < p.input.length → p.start = p.stop

namespace InRange

variable {p : UrlParser}

/-- Behind the first state, at one position. -/
theorem of_eq (hstate : p.state ≠ .scheme) (heq : p.start = p.stop) (hle : p.stop ≤ p.input.length) :
    InRange p :=
  ⟨by omega, hle, fun h => absurd h hstate, fun _ _ => heq⟩

/-- At the end of the input. -/
theorem of_done (hstate : p.state = .done) (hstart : p.start ≤ p.input.length)
    (hstop : p.stop = p.input.length) : InRange p := by
  refine ⟨hstart, by omega, fun h => ?_, fun _ h => ?_⟩
  · rw [hstate] at h
    cases h
  · rcases h with h | h
    · exact absurd hstate h
    · omega

theorem dispatch {idx : ℕ} (hstate : p.state ≠ .scheme) (hidx : idx < p.input.length) (c : Byte) :
    InRange (p.dispatch idx c) := by
  rw [UrlParser.dispatch]
  split_ifs
  · exact of_eq (by simp) rfl hidx
  · exact of_eq (by simp) rfl hidx.le
  · exact of_eq (by simp) rfl hidx
  · exact of_eq (by simp) rfl hidx
  · exact of_eq hstate rfl hidx

theorem parseUpTo (h : InRange p) (hstate : p.state ≠ .scheme) (delims : Bytes) (set : Url → Bytes → Url) :
    InRange (p.parseUpTo delims set) := by
  rw [UrlParser.parseUpTo]
  split
  · next idx hidx =>
    refine dispatch ?_ ?_ _
    · exact hstate
    · exact findFirst_lt hidx
  · exact of_done rfl h.start_le rfl

theorem parseScheme (h : InRange p) (hstate : p.state = .scheme) (hlt : p.stop < p.input.length) :
    InRange p.parseScheme := by
  have hstart := h.scheme hstate
  rw [UrlParser.parseScheme]
  split
  · dsimp only
    split
    · -- Back to the start, which is where `start` has been all the time.
      refine of_eq ?_ hstart (Nat.zero_le _)
      dsimp only
      split_ifs <;> simp
    · exact ⟨h.start_le, hlt, fun _ => hstart, fun hne => absurd hstate hne⟩
  · exact of_eq (by simp) rfl hlt

theorem stepWith (h : InRange p) (hlt : p.stop < p.input.length) (read : QueryValues → Bytes → QueryValues) :
    InRange (p.stepWith read) := by
  rw [UrlParser.stepWith]
  split <;> rename_i hstate
  case h_1 => exact h.parseScheme hstate hlt
  all_goals
    have hne : p.state ≠ .scheme := by simp [hstate]
    have heq := h.eq hne (.inr hlt)
  · rw [parseAuthority]
    split
    · next hslash => exact of_eq (by simp) rfl hslash.1
    · exact of_eq (by simp) rfl h.start_le
  · rw [parseUserinfo]
    split
    · next idx hidx => exact of_eq (by simp) rfl (findFirst_lt hidx)
    · exact of_eq (by simp) heq h.stop_le
  · exact h.parseUpTo hne _ _
  · exact h.parseUpTo hne _ _
  · exact h.parseUpTo hne _ _
  · rw [parseQueryWith]
    split
    · next idx hidx => exact of_eq (by simp) rfl (findFirst_lt hidx)
    · exact of_done rfl h.start_le rfl
  · exact of_eq (by simp [parseFragment]) heq h.stop_le
  · exact of_done hstate h.start_le rfl

theorem accessesUpTo (h : InRange p) (delims : Bytes) :
    ∀ a ∈ p.accessesUpTo delims, a.Valid p.input.length := by
  rw [UrlParser.accessesUpTo]
  split
  · next idx hidx =>
    intro a ha
    rw [List.mem_cons, List.mem_singleton] at ha
    rcases ha with rfl | rfl
    · exact h.start_le
    · exact findFirst_lt hidx
  · intro a ha
    rw [List.mem_singleton.1 ha]
    exact h.start_le

/-- A turn reads what is there. -/
theorem accesses (h : InRange p) (hlt : p.stop < p.input.length) :
    ∀ a ∈ p.accesses, a.Valid p.input.length := by
  have hsubstr : ∀ a ∈ [Access.substr p.start], a.Valid p.input.length := by
    intro a ha
    rw [List.mem_singleton.1 ha]
    exact h.start_le
  rw [UrlParser.accesses]
  split <;> rename_i hstate
  · intro a ha
    rcases List.mem_cons.1 ha with rfl | ha
    · exact hlt
    split_ifs at ha with hcolon hfront
    · rw [List.mem_singleton.1 ha]
      exact Nat.zero_lt_of_lt hlt
    · exact absurd ha List.not_mem_nil
    · exact hsubstr a ha
  · have heq := h.eq (by simp [hstate]) (.inr hlt)
    intro a ha
    split_ifs at ha with hnext hslash
    · rw [List.mem_cons, List.mem_singleton] at ha
      rcases ha with rfl | rfl
      · exact heq ▸ hlt
      · exact hnext
    · rw [List.mem_singleton.1 ha]
      exact heq ▸ hlt
    · exact absurd ha List.not_mem_nil
  · split
    · exact hsubstr
    · simp
  · exact h.accessesUpTo _
  · exact h.accessesUpTo _
  · exact h.accessesUpTo _
  · exact hsubstr
  · exact hsubstr
  · simp

end InRange

/-- The parser stays in the input, and its input stays the same. -/
theorem inRange_of_reaches {read : QueryValues → Bytes → QueryValues} {s : Bytes} {p : UrlParser}
    (h : Loop.Reaches (turnWith read) { input := s } p) : InRange p ∧ p.input = s := by
  refine h.invariant (fun p => InRange p ∧ p.input = s) ?_ ⟨?_, rfl⟩
  · intro p q hp hq
    rw [turnWith] at hq
    split_ifs at hq with hlt <;> cases hq
    exact ⟨hp.1.stepWith hlt read, (stepWith_input read p).trans hp.2⟩
  · exact ⟨Nat.zero_le _, Nat.zero_le _, fun _ => rfl, fun hne => absurd rfl hne⟩

theorem run_turnWith (read : QueryValues → Bytes → QueryValues) (s : Bytes) :
    (Loop.run (turnWith read) (9 * (s.length + 1)) { input := s }).isSome := by
  have hbody : ∀ p : UrlParser, True →
      (∃ q, p.turnWith read = some (.next q) ∧ True ∧ q.measure < p.measure) ∨
        ∃ r, p.turnWith read = some (.done r) ∧ True := by
    intro p _
    rw [turnWith]
    split_ifs with hlt
    · exact .inl ⟨_, rfl, trivial, measure_stepWith_lt read hlt⟩
    · exact .inr ⟨p, rfl, trivial⟩
  have hmeasure : measure { input := s } < 9 * (s.length + 1) := by
    simp only [measure, UrlParseState.rank]
    omega
  obtain ⟨p, hp, -⟩ := Loop.run_total (fun _ => True) (fun _ => True) measure hbody trivial hmeasure
  rw [hp]
  rfl

/-- The loop of `parse` ends, after a turn for each state and byte at most, and at every turn the positions are
    in the input, all that is read of it is there, and `start` is `end` in every state behind the first one.
    The turns of `parse` itself are such turns, for as long as `decode` returns. -/
theorem parse_in_range (s : Bytes) :
    (∀ read : QueryValues → Bytes → QueryValues,
      (Loop.run (turnWith read) (9 * (s.length + 1)) { input := s }).isSome ∧
      ∀ p, Loop.Reaches (turnWith read) { input := s } p →
        p.input = s ∧ p.start ≤ s.length ∧ p.stop ≤ s.length ∧
        (p.stop < s.length → (∀ a ∈ p.accesses, a.Valid s.length) ∧
          (p.state ≠ .scheme → p.start = p.stop))) ∧
    ∀ p, Loop.Reaches turn { input := s } p → Loop.Reaches (turnWith readQuery) { input := s } p := by
  refine ⟨fun read => ⟨run_turnWith read s, fun p hp => ?_⟩, fun p hp => hp.mono fun _ _ => turn_eq⟩
  obtain ⟨hrange, rfl⟩ := inRange_of_reaches hp
  exact ⟨rfl, hrange.start_le, hrange.stop_le, fun hlt =>
    ⟨hrange.accesses hlt, fun hne => hrange.eq hne (.inr hlt)⟩⟩

end UrlParser

end Cppnet
