import Cppnet.Url.Bounds

/-!
# A delimiter at the end

A url that ends in the delimiter of a query or a fragment, with nothing behind it. The parser is at the end of its
input when it gets to that component, so that its loop ends in the state of it: the url is rejected, although
there is nothing wrong with an empty query in front of a fragment.

The turns of the parser on a text, and those on the text with a byte behind it, are the same (`Plain.step`), but
for the one that comes to the end of the text.
-/

namespace Cppnet

open Lib

/-- A search in a text with one more byte. -/
theorem findFirst_concat (f : Byte → Bool) (s : Bytes) (c : Byte) {pos : ℕ} (hpos : pos ≤ s.length) :
    findFirst f (s ++ [c]) pos = (findFirst f s pos).or (if f c then some s.length else none) := by
  rw [findFirst, findFirst, List.drop_append_of_le_length hpos, List.findIdx?_append]
  rcases (s.drop pos).findIdx? f with _ | i
  · have hlen : pos + (s.length - pos) = s.length := by omega
    by_cases hc : f c <;> simp [hc, hlen]
  · rfl

theorem substr_concat (s : Bytes) (c : Byte) {pos n : ℕ} (h : pos + n ≤ s.length) :
    substr (s ++ [c]) pos n = substr s pos n := by
  rw [substr, substr, List.drop_append_of_le_length (by omega), List.take_append_of_le_length]
  rw [List.length_drop]
  omega

namespace UrlParser

/-- The parser, with one more byte at the end of its input. -/
def extend (p : UrlParser) (c : Byte) : UrlParser := { p with input := p.input ++ [c] }

/-- The delimiters of a query and of a fragment, and the states they lead to. -/
def lastDelimiters : List (Byte × UrlParseState) := [(ch '?', .query), (ch '#', .fragment)]

/-- In front of the query and the fragment, in a text without them. -/
structure Plain (p : UrlParser) : Prop extends InRange p where
  rank : UrlParseState.query.rank < p.state.rank
  input : ∀ d ∈ lastDelimiters, d.1 ∉ p.input

section Steps

variable {p : UrlParser} {c : Byte} {state : UrlParseState}

theorem lt_extend (h : p.stop ≤ p.input.length) : (p.extend c).stop < (p.extend c).input.length := by
  change p.stop < (p.input ++ [c]).length
  rw [List.length_append]
  exact Nat.lt_succ_of_le h

theorem reaches_of_step {q : UrlParser} (hlt : p.stop < p.input.length) (h : p.step = some q) :
    Loop.Reaches turn p q :=
  .next (by rw [turn, if_pos hlt, h]; rfl) (.refl q)

theorem extend_dispatch (p : UrlParser) (idx : ℕ) (c' c : Byte) :
    (p.dispatch idx c').extend c = (p.extend c).dispatch idx c' := by
  rw [dispatch, dispatch]
  split_ifs <;> rfl

theorem parseUpTo_of_some {delims : Bytes} {idx : ℕ} (set : Url → Bytes → Url)
    (h : findFirstOf p.input delims p.start = some idx) :
    p.parseUpTo delims set =
      dispatch { p with out := set p.out (substr p.input p.start (idx - p.start)) } idx (p.input.getD idx 0) := by
  rw [parseUpTo, h]

theorem parseUpTo_of_none {delims : Bytes} (set : Url → Bytes → Url)
    (h : findFirstOf p.input delims p.start = none) :
    p.parseUpTo delims set =
      { p with out := set p.out (p.input.drop p.start), state := .done, stop := p.input.length } := by
  rw [parseUpTo, h]

/-- A component that ends in the input is the same with one more byte behind it; one that does not ends there. -/
theorem parseUpTo_extend {delims : Bytes} (set : Url → Bytes → Url) (hstart : p.start ≤ p.input.length)
    (hc : c ∈ delims) :
    ((∃ q idx, ∃ c' ∈ delims, c' ∈ p.input ∧ p.parseUpTo delims set = dispatch q idx c') ∧
        (p.extend c).parseUpTo delims set = (p.parseUpTo delims set).extend c) ∨
      ((p.parseUpTo delims set).state = .done ∧ (p.parseUpTo delims set).stop = p.input.length ∧
        (p.extend c).parseUpTo delims set =
          dispatch { p.extend c with out := (p.parseUpTo delims set).out } p.input.length c) := by
  have hfind : findFirstOf (p.extend c).input delims (p.extend c).start =
      (findFirstOf p.input delims p.start).or (some p.input.length) := by
    have h := findFirst_concat (delims.contains ·) p.input c hstart
    rwa [if_pos (by simpa using hc)] at h
  rcases findFirst_cases (delims.contains ·) p.input p.start with
    ⟨hnone, -⟩ | ⟨pre, c', rest, hinput, hsome, hle, hc', -⟩
  · right
    change findFirstOf p.input delims p.start = none at hnone
    rw [hnone, Option.none_or] at hfind
    have hget : (p.extend c).input.getD p.input.length 0 = c := by simp [extend]
    have hsub : substr (p.extend c).input (p.extend c).start (p.input.length - (p.extend c).start) =
        p.input.drop p.start := by
      change substr (p.input ++ [c]) p.start (p.input.length - p.start) = _
      rw [substr_concat _ _ (by omega), substr, List.take_of_length_le (by simp)]
    rw [parseUpTo_of_none set hnone, parseUpTo_of_some set hfind, hget, hsub]
    exact ⟨rfl, rfl, rfl⟩
  · left
    change findFirstOf p.input delims p.start = some pre.length at hsome
    rw [hsome, Option.some_or] at hfind
    have hlt : pre.length < p.input.length := by simp [hinput]
    have hget : p.input.getD pre.length 0 = c' := by simp [hinput]
    have hget' : (p.extend c).input.getD pre.length 0 = c' := by simp [extend, hinput]
    have hsub : substr (p.extend c).input (p.extend c).start (pre.length - (p.extend c).start) =
        substr p.input p.start (pre.length - p.start) := by
      change substr (p.input ++ [c]) p.start (pre.length - p.start) = _
      rw [substr_concat _ _ (by omega)]
    have hmem : c' ∈ p.input := by simp [hinput]
    rw [parseUpTo_of_some set hsome, parseUpTo_of_some set hfind, hget, hget', hsub, extend_dispatch]
    exact ⟨⟨_, _, c', by simpa using hc', hmem, rfl⟩, rfl⟩

/-- What becomes of a turn with the delimiter `c` behind the input: the same, or else the end, in the state of a
    component for which nothing is left. -/
def Extends (p : UrlParser) (c : Byte) (state : UrlParseState) : Prop :=
  ∃ p', p.step = some p' ∧ p'.input = p.input ∧
    (UrlParseState.query.rank < p'.state.rank ∧ Loop.Reaches turn (p.extend c) (p'.extend c) ∨
      p'.state = .done ∧ p'.stop = p.input.length ∧ ∃ q, Loop.Reaches turn (p.extend c) q ∧
        q.state = state ∧ q.out = p'.out ∧ q.stop = p.input.length + 1 ∧ q.input = p.input ++ [c])

/-- A turn for a component that goes up to some delimiters. -/
theorem extends_parseUpTo (delims : Bytes) (set : Url → Bytes → Url) (h : p.Plain) (hlt : p.stop < p.input.length)
    (hstep : ∀ q : UrlParser, q.state = p.state → q.step = some (q.parseUpTo delims set))
    (hdelims : ∀ d ∈ delimiters, d.1 ∈ delims → d ∈ lastDelimiters ∨ UrlParseState.query.rank < d.2.rank)
    (hall : ∀ c ∈ delims, ∃ d ∈ delimiters, d.1 = c)
    (hc : (c, state) ∈ lastDelimiters) (hmem : c ∈ delims) : p.Extends c state := by
  have hlt' := lt_extend (c := c) hlt.le
  refine ⟨_, hstep p rfl, (parseUpTo_cases delims set p).1, ?_⟩
  have hext := hstep (p.extend c) rfl
  rcases parseUpTo_extend set h.start_le hmem with ⟨⟨q, idx, c', hc', hinput, heq⟩, hsame⟩ | ⟨hdone, hstop, hlast⟩
  · left
    rw [hsame] at hext
    refine ⟨?_, reaches_of_step hlt' hext⟩
    obtain ⟨d, hd, rfl⟩ := hall c' hc'
    rw [heq, dispatch_state hd]
    exact (hdelims d hd hc').resolve_left fun hlast => h.input d hlast hinput
  · right
    rw [hlast] at hext
    refine ⟨hdone, hstop, _, reaches_of_step hlt' hext, ?_, ?_, ?_, ?_⟩
    all_goals
      simp only [lastDelimiters, List.mem_cons, Prod.mk.injEq, List.not_mem_nil, or_false] at hc
      rcases hc with ⟨rfl, rfl⟩ | ⟨rfl, rfl⟩ <;> rfl

theorem not_mem_of_mem_lastDelimiters (hc : (c, state) ∈ lastDelimiters) : c ∉ sv ":/@" := by
  simp only [lastDelimiters, List.mem_cons, Prod.mk.injEq, List.not_mem_nil, or_false] at hc
  rcases hc with ⟨rfl, rfl⟩ | ⟨rfl, rfl⟩ <;> decide

/-- What a text without a scheme starts with. -/
def guess (input : Bytes) : UrlParseState :=
  if sv "//" <+: input then .authority
  else if input.head? = some (ch '/') then .path
  else .host

theorem parseScheme_colon (h : p.input[p.stop]? = some (ch ':')) :
    p.parseScheme =
      { p with
        out := { p.out with scheme := substr p.input p.start (p.stop - p.start) }
        start := p.stop + 1
        stop := p.stop + 1
        state := .authority } := by
  rw [parseScheme, if_neg (not_not.2 h)]

theorem parseScheme_next (h : p.input[p.stop]? ≠ some (ch ':')) (hne : p.stop + 1 ≠ p.input.length) :
    p.parseScheme = { p with stop := p.stop + 1 } := by
  rw [parseScheme, if_pos h]
  exact if_neg hne

theorem parseScheme_last (h : p.input[p.stop]? ≠ some (ch ':')) (heq : p.stop + 1 = p.input.length) :
    p.parseScheme = { p with stop := 0, state := guess p.input } := by
  rw [parseScheme, if_pos h]
  exact if_pos heq

theorem rank_guess (input : Bytes) : UrlParseState.query.rank < (guess input).rank := by
  rw [guess]
  split_ifs <;> decide

/-- One more byte does not make two slashes. -/
theorem slashes_concat_iff (s : Bytes) (hc : c ≠ ch '/') : sv "//" <+: s ++ [c] ↔ sv "//" <+: s := by
  rcases s with _ | ⟨a, _ | ⟨b, s⟩⟩
  · simp [sv]
  · simpa [sv] using fun _ => hc.symm
  · simp [sv]

theorem guess_concat {s : Bytes} (hs : s ≠ []) (hc : c ≠ ch '/') : guess (s ++ [c]) = guess s := by
  rw [guess, guess, List.head?_append_of_ne_nil _ hs]
  simp only [slashes_concat_iff s hc]

/-- The same turn with `c` behind the input. -/
theorem extends_of_step {p' : UrlParser} (hlt : p.stop < p.input.length) (hstep : p.step = some p')
    (hext : (p.extend c).step = some (p'.extend c)) (hinput : p'.input = p.input)
    (hrank : UrlParseState.query.rank < p'.state.rank) : p.Extends c state :=
  ⟨p', hstep, hinput, .inl ⟨hrank, reaches_of_step (lt_extend hlt.le) hext⟩⟩

theorem step_scheme (h : p.state = .scheme) : p.step = some p.parseScheme := by rw [step, h]

theorem step_authority (h : p.state = .authority) : p.step = some p.parseAuthority := by rw [step, h]

theorem step_userinfo (h : p.state = .userinfo) : p.step = some p.parseUserinfo := by rw [step, h]

/-- The end of the text is one byte further, if there is no scheme. -/
theorem Plain.extends_scheme (h : p.Plain) (hlt : p.stop < p.input.length) (hstate : p.state = .scheme)
    (hc : (c, state) ∈ lastDelimiters) : p.Extends c state := by
  have hnot := not_mem_of_mem_lastDelimiters hc
  have hcolon : c ≠ ch ':' := fun heq => hnot (heq ▸ by decide)
  have hslash : c ≠ ch '/' := fun heq => hnot (heq ▸ by decide)
  have hstep := step_scheme hstate
  have hext := step_scheme (p := p.extend c) hstate
  have hget : (p.extend c).input[(p.extend c).stop]? = p.input[p.stop]? := List.getElem?_append_left hlt
  have hlen : (p.extend c).input.length = p.input.length + 1 := List.length_append
  by_cases hp : p.input[p.stop]? = some (ch ':')
  · have hsub : substr (p.input ++ [c]) p.start (p.stop - p.start) = substr p.input p.start (p.stop - p.start) := by
      have hstart := h.scheme hstate
      exact substr_concat _ _ (by omega)
    rw [parseScheme_colon hp] at hstep
    rw [parseScheme_colon (hget.trans hp)] at hext
    refine extends_of_step hlt hstep (hext.trans ?_) rfl (show 2 < 7 by decide)
    simp only [extend, hsub]
  · have hne : (p.extend c).stop + 1 ≠ (p.extend c).input.length := by
      rw [hlen]
      exact Nat.ne_of_lt (Nat.succ_lt_succ hlt)
    rw [parseScheme_next (hget ▸ hp) hne] at hext
    by_cases hlast : p.stop + 1 = p.input.length
    · -- The last byte is followed by `c`, and `c` by the end.
      have hlastget : (p.input ++ [c])[p.stop + 1]? ≠ some (ch ':') := by
        rw [hlast, List.getElem?_concat_length]
        simpa using hcolon
      have hext' := step_scheme (p := { p.extend c with stop := p.stop + 1 }) hstate
      rw [parseScheme_last hlastget (by dsimp only; rw [hlen, hlast])] at hext'
      rw [parseScheme_last hp hlast] at hstep
      refine ⟨_, hstep, rfl, .inl ⟨rank_guess p.input, ?_⟩⟩
      refine (reaches_of_step (lt_extend hlt.le) hext).trans (reaches_of_step ?_ (hext'.trans ?_))
      · change p.stop + 1 < (p.extend c).input.length
        omega
      · have hnil : p.input ≠ [] := List.ne_nil_of_length_pos (hlast ▸ Nat.succ_pos _)
        exact congrArg (fun guess => some { p.extend c with stop := 0, state := guess }) (guess_concat hnil hslash)
    · rw [parseScheme_next hp hlast] at hstep
      exact extends_of_step hlt hstep hext rfl h.rank

theorem Plain.extends_authority (h : p.Plain) (hlt : p.stop < p.input.length) (hstate : p.state = .authority)
    (hc : (c, state) ∈ lastDelimiters) : p.Extends c state := by
  have hslash : c ≠ ch '/' := fun heq => not_mem_of_mem_lastDelimiters hc (heq ▸ by decide)
  have hstart : p.start < p.input.length := by
    rw [h.eq (by rw [hstate]; decide) (.inr hlt)]
    exact hlt
  -- The byte behind a slash at the end is `c`, which is none.
  have hcond : (p.stop + 1 < (p.input ++ [c]).length ∧ (p.input ++ [c])[p.start]? = some (ch '/') ∧
        (p.input ++ [c])[p.stop + 1]? = some (ch '/')) ↔
      p.stop + 1 < p.input.length ∧ p.input[p.start]? = some (ch '/') ∧ p.input[p.stop + 1]? = some (ch '/') := by
    rw [List.getElem?_append_left hstart, List.length_append, List.length_singleton]
    by_cases hlast : p.stop + 1 < p.input.length
    · rw [List.getElem?_append_left hlast]
      simp only [hlast, true_and, and_iff_right_iff_imp]
      omega
    · have heq : p.stop + 1 = p.input.length := by omega
      rw [heq, List.getElem?_concat_length]
      simpa using fun _ => hslash
  have hstep := step_authority hstate
  have hext := step_authority (p := p.extend c) hstate
  rw [parseAuthority] at hstep hext
  dsimp only [extend] at hext
  simp only [hcond] at hext
  split_ifs at hstep hext
  · exact extends_of_step hlt hstep hext rfl (show 2 < 6 by decide)
  · exact extends_of_step hlt hstep hext rfl (show 2 < 3 by decide)

theorem Plain.extends_userinfo (h : p.Plain) (hlt : p.stop < p.input.length) (hstate : p.state = .userinfo)
    (hc : (c, state) ∈ lastDelimiters) : p.Extends c state := by
  have hat : c ≠ ch '@' := fun heq => not_mem_of_mem_lastDelimiters hc (heq ▸ by decide)
  have hfind : find (p.input ++ [c]) (ch '@') p.start = find p.input (ch '@') p.start := by
    have hconcat := findFirst_concat (· == ch '@') p.input c h.start_le
    rwa [if_neg (by simpa using hat), Option.or_none] at hconcat
  have hstep := step_userinfo hstate
  have hext := step_userinfo (p := p.extend c) hstate
  rw [parseUserinfo] at hstep hext
  dsimp only [extend] at hext
  rw [hfind] at hext
  rcases hidx : find p.input (ch '@') p.start with _ | idx
  · simp only [hidx] at hstep hext
    exact extends_of_step hlt hstep hext rfl (show 2 < 5 by decide)
  · have hlt' := findFirst_lt hidx
    obtain ⟨i, -, rfl⟩ := Option.map_eq_some_iff.1 hidx
    simp only [hidx] at hstep hext
    rw [substr_concat _ _ (by omega)] at hext
    exact extends_of_step hlt hstep hext rfl (show 2 < 5 by decide)

/-- What every turn becomes with a delimiter behind the input. -/
theorem Plain.step (h : p.Plain) (hlt : p.stop < p.input.length) (hc : (c, state) ∈ lastDelimiters) :
    p.Extends c state := by
  have hmem : c ∈ sv "?#" := by
    simp only [lastDelimiters, List.mem_cons, Prod.mk.injEq, List.not_mem_nil, or_false] at hc
    rcases hc with ⟨rfl, -⟩ | ⟨rfl, -⟩ <;> decide
  rcases hstate : p.state
  · exact h.extends_scheme hlt hstate hc
  · exact h.extends_authority hlt hstate hc
  · exact h.extends_userinfo hlt hstate hc
  · refine extends_parseUpTo (sv ":/?#") (fun out host => { out with host }) h hlt ?_ (by decide) (by decide) hc
      (List.mem_append_right (sv ":/") hmem)
    intro q hq
    rw [UrlParser.step, hq, hstate]
    rfl
  · refine extends_parseUpTo (sv "/?#") (fun out port => { out with port }) h hlt ?_ (by decide) (by decide) hc
      (List.mem_append_right (sv "/") hmem)
    intro q hq
    rw [UrlParser.step, hq, hstate]
    rfl
  · refine extends_parseUpTo (sv "?#") (fun out path => { out with path }) h hlt ?_ (by decide) (by decide) hc hmem
    intro q hq
    rw [UrlParser.step, hq, hstate]
    rfl
  all_goals
    have hrank := h.rank
    rw [hstate] at hrank
    exact absurd hrank (by decide)

/-- The turn stays in front of the query and the fragment, or is the last one. -/
theorem Plain.of_step {p' : UrlParser} (h : p.Plain) (hlt : p.stop < p.input.length) (hstep : p.step = some p')
    (hrank : UrlParseState.query.rank < p'.state.rank) : p'.Plain := by
  have hne : p.state ≠ .query := by
    intro heq
    have hrank := h.rank
    rw [heq] at hrank
    exact absurd hrank (Nat.lt_irrefl _)
  have hwith := step_of_ne hne readQuery
  rw [hstep, Option.some_inj] at hwith
  rw [hwith] at hrank ⊢
  exact ⟨h.stepWith hlt readQuery, hrank, by rw [stepWith_input]; exact h.input⟩

/-- Where the loop of `parse` comes to the end of a text, it ends with a delimiter behind the text in the state the
    delimiter leads to, with the same components. -/
theorem Plain.returns {r : UrlParser} (h : p.Plain) (hr : Loop.Returns turn p r) (hdone : r.state = .done)
    (hc : (c, state) ∈ lastDelimiters) :
    ∃ q, Loop.Returns turn (p.extend c) q ∧ q.state = state ∧ q.out = r.out ∧ q.stop = p.input.length + 1 := by
  induction hr with
  | @done p r hturn =>
    rw [turn] at hturn
    split_ifs at hturn with hlt
    · obtain ⟨p', -, hp'⟩ := Option.map_eq_some_iff.1 hturn
      cases hp'
    · cases hturn
      have hrank := h.rank
      rw [hdone] at hrank
      exact absurd hrank (by decide)
  | @next p p₁ r hturn hrest ih =>
    rw [turn] at hturn
    split_ifs at hturn with hlt
    swap
    · cases hturn
    obtain ⟨p', hstep, hp'⟩ := Option.map_eq_some_iff.1 hturn
    cases hp'
    obtain ⟨p', hstep', hinput, ⟨hrank, hreach⟩ | ⟨hstate, hstop, q, hreach, hqstate, hqout, hqstop, hqinput⟩⟩ :=
      h.step hlt hc
    all_goals
      rw [hstep, Option.some_inj] at hstep'
      subst hstep'
    · obtain ⟨q, hq, hqstate, hqout, hqstop⟩ := ih (h.of_step hlt hstep hrank) hdone
      exact ⟨q, hreach.returns hq, hqstate, hqout, hinput ▸ hqstop⟩
    · -- The text is over, and so is the text with the delimiter.
      have hover : ¬p₁.stop < p₁.input.length := by
        rw [hstop, hinput]
        exact Nat.lt_irrefl _
      have hlast : Loop.Returns turn p₁ p₁ := .done (by rw [turn, if_neg hover])
      have hend : ¬q.stop < q.input.length := by
        rw [hqstop, hqinput, List.length_append]
        exact Nat.lt_irrefl _
      have hext : Loop.Returns turn q q := .done (by rw [turn, if_neg hend])
      exact ⟨q, hreach.returns hext, hqstate, by rw [hrest.unique hlast, hqout], hqstop⟩

end Steps

end UrlParser

namespace Url

/-- What the parser is given, and what the loop leaves it with. -/
theorem parse_eq_some_iff {s : Bytes} {res : Except UrlParseFailure Url} :
    parse s = some res ↔ ∃ p u, Loop.Returns UrlParser.turn { input := s } p ∧ UrlParser.decodeParts p.out = some u ∧
      res = if p.state ≠ .done then .error ⟨p.state, p.stop⟩ else .ok u := by
  have hfuel : UrlParser.measure { input := s } < 9 * (s.length + 1) := by
    simp only [UrlParser.measure, UrlParseState.rank]
    omega
  rw [parse]
  constructor
  · intro h
    obtain ⟨p, hp, h⟩ := Option.bind_eq_some_iff.1 h
    obtain ⟨u, hu, h⟩ := Option.bind_eq_some_iff.1 h
    refine ⟨p, u, Loop.returns_of_run hp, hu, ?_⟩
    split_ifs at h ⊢ <;> exact (Option.some.inj h).symm
  · rintro ⟨p, u, hp, hu, rfl⟩
    rw [hp.run_of_measure UrlParser.measure (fun _ _ => UrlParser.turn_measure) hfuel]
    refine Option.bind_eq_some_iff.2 ⟨p, rfl, Option.bind_eq_some_iff.2 ⟨u, hu, ?_⟩⟩
    split_ifs <;> rfl

theorem parse_concat {s : Bytes} {u : Url} {c : Byte} {state : UrlParseState}
    (hs : ∀ d ∈ UrlParser.lastDelimiters, d.1 ∉ s) (h : parse s = some (.ok u))
    (hc : (c, state) ∈ UrlParser.lastDelimiters) :
    parse (s ++ [c]) = some (.error ⟨state, s.length + 1⟩) := by
  obtain ⟨p, v, hp, hv, hres⟩ := parse_eq_some_iff.1 h
  split_ifs at hres with hdone
  have hplain : UrlParser.Plain { input := s } :=
    ⟨⟨Nat.zero_le _, Nat.zero_le _, fun _ => rfl, fun hne => absurd rfl hne⟩, show 2 < 8 by decide, hs⟩
  obtain ⟨q, hq, hstate, hout, hstop⟩ := hplain.returns hp (not_not.1 hdone) hc
  refine parse_eq_some_iff.2 ⟨q, v, hq, hout ▸ hv, ?_⟩
  have hne : state ≠ .done := by
    simp only [UrlParser.lastDelimiters, List.mem_cons, Prod.mk.injEq, List.not_mem_nil, or_false] at hc
    rcases hc with ⟨-, rfl⟩ | ⟨-, rfl⟩ <;> decide
  rw [if_pos (hstate ▸ hne), hstate, hstop]

/-- A url without a query and a fragment is rejected as soon as it ends in the delimiter of one, at the component
    that is empty, one byte behind the url. -/
theorem parse_trailing_delimiter (s : Bytes) (u : Url) (hquery : ch '?' ∉ s) (hfragment : ch '#' ∉ s)
    (h : parse s = some (.ok u)) :
    parse (s ++ sv "?") = some (.error ⟨.query, s.length + 1⟩) ∧
      parse (s ++ sv "#") = some (.error ⟨.fragment, s.length + 1⟩) := by
  have hs : ∀ d ∈ UrlParser.lastDelimiters, d.1 ∉ s := by
    intro d hd
    simp only [UrlParser.lastDelimiters, List.mem_cons, List.not_mem_nil, or_false] at hd
    rcases hd with rfl | rfl
    · exact hquery
    · exact hfragment
  exact ⟨parse_concat hs h (by decide), parse_concat hs h (by decide)⟩

theorem parse_path_trailing :
    parse (sv "/a") = some (.ok { path := sv "/a" }) ∧
      parse (sv "/a" ++ sv "?") = some (.error ⟨.query, 3⟩) ∧
      parse (sv "/a" ++ sv "#") = some (.error ⟨.fragment, 3⟩) :=
  have h : parse (sv "/a") = some (.ok { path := sv "/a" }) := by decide +kernel
  ⟨h, parse_trailing_delimiter _ _ (by decide) (by decide) h⟩

/-- The path `/a` is a url, and `/a?` is none. -/
theorem exists_parse_trailing :
    ∃ (s : Bytes) (u : Url), ch '?' ∉ s ∧ ch '#' ∉ s ∧ parse s = some (.ok u) ∧
      ¬(parse (s ++ sv "?") = some (.ok u) ∧ parse (s ++ sv "#") = some (.ok u)) :=
  ⟨sv "/a", { path := sv "/a" }, by decide, by decide, by decide +kernel, by decide +kernel⟩

end Url

end Cppnet
