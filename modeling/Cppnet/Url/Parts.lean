import Cppnet.Url.Escapes

/-!
# The parts of a url

What the text of a url is for the parser, without its positions and states: the text is cut at the
first one of some delimiters again and again, and what is between them are the parts of the url
(`parts`). There are none if the text ends where a part should start.

`url::parse` accepts the texts that have parts, and gives the components made of them, each decoded by
itself (`parse_eq`), if every `%` is followed by two hexadecimal digits: else the process may
terminate.
-/

namespace Cppnet

open Lib

/-! ## Cutting texts -/

/-- What is in front of the first of the delimiters, and the rest, from the delimiter on. -/
def cut (delims s : Bytes) : Bytes × Bytes :=
  (s.takeWhile fun c => !delims.contains c, s.dropWhile fun c => !delims.contains c)

section Cut

variable {delims s t : Bytes}

theorem cut_append (hs : ∀ c ∈ delims, c ∉ s) (ht : ∀ c ∈ t.head?, c ∈ delims) :
    cut delims (s ++ t) = (s, t) := by
  have hall : ∀ c ∈ s, (!delims.contains c) = true := by
    intro c hc
    rw [Bool.not_eq_true', List.contains_eq_mem, decide_eq_false_iff_not]
    exact fun h => hs c h hc
  have hhead : t.takeWhile (fun c => !delims.contains c) = [] ∧
      t.dropWhile (fun c => !delims.contains c) = t := by
    rcases t with _ | ⟨c, t⟩
    · exact ⟨rfl, rfl⟩
    · have hc : (!delims.contains c) = false := by simpa using ht c rfl
      rw [List.takeWhile_cons, List.dropWhile_cons, hc]
      exact ⟨rfl, rfl⟩
  rw [cut, List.takeWhile_append_of_pos hall, List.dropWhile_append_of_pos hall, hhead.1, hhead.2,
    List.append_nil]

/-- A text is what it is cut into. -/
theorem cut_spec (delims s : Bytes) :
    (cut delims s).1 ++ (cut delims s).2 = s ∧ (∀ c ∈ delims, c ∉ (cut delims s).1) ∧
      ∀ c ∈ (cut delims s).2.head?, c ∈ delims := by
  refine ⟨List.takeWhile_append_dropWhile, fun c hc hmem => ?_, fun c hc => ?_⟩
  · have := List.all_eq_true.1 List.all_takeWhile c hmem
    simp [hc] at this
  · have := List.head?_dropWhile_not (fun c => !delims.contains c) s
    rw [Option.mem_def] at hc
    simp only [cut] at hc
    rw [hc] at this
    simpa using this

theorem cut_singleton_of_not_mem {c : Byte} {s : Bytes} (hs : c ∉ s) : cut [c] s = (s, []) := by
  have h : cut [c] (s ++ []) = (s, []) := cut_append (by simpa using hs) (by simp)
  rwa [List.append_nil] at h

theorem cut_singleton_append {c : Byte} {s : Bytes} (hs : c ∉ s) (t : Bytes) :
    cut [c] (s ++ c :: t) = (s, c :: t) :=
  cut_append (by simpa using hs) (by simp)

/-- In front of delimiters that are no hexadecimal digits. -/
theorem Url.Escaped.cut (hdelims : ∀ c ∈ delims, digit 16 c = none) (h : Url.Escaped s) :
    Url.Escaped (cut delims s).1 := by
  obtain ⟨htext, -, hhead⟩ := cut_spec delims s
  rcases hr : (Cppnet.cut delims s).2 with _ | ⟨c, r⟩
  · rw [hr, List.append_nil] at htext
    rwa [htext]
  · rw [hr] at htext hhead
    rw [← htext] at h
    exact (h.of_append_cons (hdelims c (hhead c rfl))).1

end Cut

/-! ## The parts of a text -/

/-- The parts of the text of a url. Those that are not there at all are not those that are empty. -/
structure UrlParts where
  scheme : Option Bytes := none
  userinfo : Option Bytes := none
  host : Bytes := []
  port : Option Bytes := none
  path : Bytes := []
  query : Option Bytes := none
  fragment : Option Bytes := none
  deriving DecidableEq

namespace UrlParts

variable (parts : UrlParts)

/-- The fragment goes to the end. -/
def readFragment (t : Bytes) : Option UrlParts :=
  if t = [] then none else some { parts with fragment := some t }

/-- The query goes up to the fragment. -/
def readQuery (t : Bytes) : Option UrlParts :=
  if t = [] then none
  else
    match cut (sv "#") t with
    | (query, []) => some { parts with query := some query }
    | (query, _ :: t) => readFragment { parts with query := some query } t

/-- What is behind the path. -/
def afterPath : Bytes → Option UrlParts
  | [] => some parts
  | c :: t => if c = ch '?' then parts.readQuery t else parts.readFragment t

/-- The path goes up to the query or the fragment. -/
def readPath (t : Bytes) : Option UrlParts :=
  if t = [] then none
  else afterPath { parts with path := (cut (sv "?#") t).1 } (cut (sv "?#") t).2

/-- What is behind the port. -/
def afterPort (t : Bytes) : Option UrlParts :=
  if t.head? = some (ch '/') then parts.readPath t else parts.afterPath t

/-- The port goes up to the path. -/
def readPort (t : Bytes) : Option UrlParts :=
  if t = [] then none
  else afterPort { parts with port := some (cut (sv "/?#") t).1 } (cut (sv "/?#") t).2

/-- What is behind the host. -/
def afterHost (t : Bytes) : Option UrlParts :=
  if t.head? = some (ch ':') then parts.readPort t.tail else parts.afterPort t

/-- The host goes up to the port or the path. -/
def readHost (t : Bytes) : Option UrlParts :=
  if t = [] then none
  else afterHost { parts with host := (cut (sv ":/?#") t).1 } (cut (sv ":/?#") t).2

/-- The userinfo goes up to the first `@`, wherever that is. -/
def readUserinfo (t : Bytes) : Option UrlParts :=
  if t = [] then none
  else
    match cut (sv "@") t with
    | (_, []) => parts.readHost t
    | (userinfo, _ :: t) => readHost { parts with userinfo := some userinfo } t

/-- Two slashes are in front of the userinfo and the host: without them, there is only a path. -/
def readAuthority (t : Bytes) : Option UrlParts :=
  if t = [] then none
  else if sv "//" <+: t then parts.readUserinfo (t.drop 2)
  else parts.readPath t

/-- The parts of a text. The scheme goes up to the first `:`, wherever that is. -/
def ofText (t : Bytes) : Option UrlParts :=
  match cut (sv ":") t with
  | (scheme, _ :: t) => readAuthority { scheme := some scheme } t
  | (_, []) =>
    if t = [] then none
    else if sv "//" <+: t then readAuthority {} t
    else if t.head? = some (ch '/') then readPath {} t
    else readHost {} t

end UrlParts

/-! ## The components made of the parts -/

namespace Url

/-- The username and the password, behind the first `:`. -/
def userinfoOf (t : Bytes) : UserInfo := ⟨(cut (sv ":") t).1, (cut (sv ":") t).2.tail⟩

/-- The parameters of a query. There is none behind a separator at the end. -/
def queryParts (raw : Bytes) : List Bytes :=
  let ps := raw.splitOn (ch '&')
  if ps.getLast? = some [] then ps.dropLast else ps

theorem queryParts_of_not_mem {part : Bytes} (h : ch '&' ∉ part) :
    queryParts part = if part = [] then [] else [part] := by
  rw [queryParts, List.splitOn_eq_singleton h]
  simp

theorem queryParts_append {part : Bytes} (h : ch '&' ∉ part) (rest : Bytes) :
    queryParts (part ++ ch '&' :: rest) = part :: queryParts rest := by
  have hne : rest.splitOn (ch '&') ≠ [] := List.splitOn_ne_nil _ _
  rw [queryParts, queryParts, List.splitOn_append_cons_self_of_not_mem h, List.getLast?_cons_of_ne_nil hne,
    List.dropLast_cons_of_ne_nil hne]
  split_ifs <;> rfl

/-- One more parameter: one more value of a key, or a key only. -/
def addPart (query : QueryValues) (part : Bytes) : QueryValues :=
  match cut (sv "=") part with
  | (key, []) => query.alter (percentDecode key) [] id
  | (key, _ :: val) => query.push (percentDecode key) (percentDecode val)

/-- The values of a query. -/
def queryValues (raw : Bytes) : QueryValues := (queryParts raw).foldl addPart .empty

/-- The components decoded, but for the query. -/
def decoded (u : Url) : Url :=
  { u with
    scheme := percentDecode u.scheme
    userinfo := ⟨percentDecode u.userinfo.username, percentDecode u.userinfo.password⟩
    host := percentDecode u.host
    port := percentDecode u.port
    path := percentDecode u.path
    fragment := percentDecode u.fragment }

end Url

/-- The components made of the parts, of which only the query is decoded. -/
def UrlParts.url (parts : UrlParts) : Url where
  scheme := parts.scheme.getD []
  userinfo := Url.userinfoOf (parts.userinfo.getD [])
  host := parts.host
  port := parts.port.getD []
  path := parts.path
  query := Url.queryValues (parts.query.getD [])
  fragment := parts.fragment.getD []

/-- Every `%` of the parts, but for the query, is followed by two hexadecimal digits. -/
structure UrlParts.Escaped (parts : UrlParts) : Prop where
  scheme : Url.Escaped (parts.scheme.getD [])
  userinfo : Url.Escaped (parts.userinfo.getD [])
  host : Url.Escaped parts.host
  port : Url.Escaped (parts.port.getD [])
  path : Url.Escaped parts.path
  fragment : Url.Escaped (parts.fragment.getD [])

namespace UrlParser

/-! ## The parser, from a position on -/

/-- From `p` on, the parser reads the parts `result`, or stops before the end. -/
def Reads (p : UrlParser) (result : Option UrlParts) : Prop :=
  ∃ q, Loop.Returns turn p q ∧
    match result with
    | some parts => q.state = .done ∧ q.out = parts.url ∧ parts.Escaped
    | none => q.state ≠ .done ∧ ∃ parts : UrlParts, q.out = parts.url ∧ parts.Escaped

/-- The parser is at the start of the text `t`, behind the parts `parts`. -/
structure At (p : UrlParser) (s : UrlParseState) (t : Bytes) (parts : UrlParts) : Prop where
  state : p.state = s
  input : ∃ pre, p.input = pre ++ t ∧ p.start = pre.length ∧ p.stop = pre.length
  out : p.out = parts.url
  text : Url.Escaped t
  escaped : parts.Escaped
  query : s ≠ .fragment → parts.query = none

theorem Reads.step {p q : UrlParser} {result : Option UrlParts} (hlt : p.stop < p.input.length)
    (h : p.step = some q) (hq : q.Reads result) : p.Reads result := by
  obtain ⟨q', hret, hresult⟩ := hq
  refine ⟨q', .next ?_ hret, hresult⟩
  rw [turn, if_pos hlt, h, Option.map_some]

theorem reads_done {p : UrlParser} {parts : UrlParts} (h : p.state = .done) (hout : p.out = parts.url)
    (hparts : parts.Escaped) : p.Reads (some parts) := by
  by_cases hlt : p.stop < p.input.length
  · have hstep : p.step = some { p with stop := p.input.length } := by rw [UrlParser.step, h]
    have hturn : turn { p with stop := p.input.length } =
        some (.done { p with stop := p.input.length }) := by
      rw [turn, if_neg (lt_irrefl p.input.length)]
    exact Reads.step hlt hstep ⟨_, .done hturn, h, hout, hparts⟩
  · exact ⟨p, .done (by rw [turn, if_neg hlt]), h, hout, hparts⟩

section At

variable {p : UrlParser} {state : UrlParseState} {t : Bytes} {parts : UrlParts}

/-- The loop ends with the text, whatever should follow. -/
theorem At.reads_nil (h : p.At state [] parts) (hstate : state ≠ .done) : p.Reads none := by
  obtain ⟨pre, hinput, -, hstop⟩ := h.input
  refine ⟨p, .done ?_, by rw [h.state]; exact hstate, parts, h.out, h.escaped⟩
  rw [turn, if_neg (by rw [hinput, hstop, List.append_nil]; exact lt_irrefl _)]

theorem At.lt (h : p.At state t parts) (ht : t ≠ []) : p.stop < p.input.length := by
  have hpos := List.length_pos_iff.2 ht
  obtain ⟨pre, hinput, -, hstop⟩ := h.input
  rw [hinput, hstop, List.length_append]
  omega

theorem At.drop_start (h : p.At state t parts) : p.input.drop p.start = t := by
  obtain ⟨pre, hinput, hstart, -⟩ := h.input
  rw [hinput, hstart, List.drop_left]

end At

/-! ## Queries -/

/-- One parameter, to the end or to the separator behind it. -/
theorem queryLoop_part {part : Bytes} (hpart : Url.Escaped part) (hamp : ch '&' ∉ part) (n : ℕ)
    (query : QueryValues) (rest : Bytes) :
    (part ≠ [] → queryLoop (n + 1) query part = some (Url.addPart query part)) ∧
      queryLoop (n + 1) query (part ++ ch '&' :: rest) =
        queryLoop n (Url.addPart query part) rest := by
  rcases find_zero_cases part (ch '=') with ⟨hnot, hfind⟩ | ⟨key, val, rfl, hkey, hfind⟩
  · have hadd : Url.addPart query part = query.alter (Url.percentDecode part) [] id := by
      rw [Url.addPart, show sv "=" = [ch '='] from rfl, cut_singleton_of_not_mem hnot]
    constructor
    · intro hne
      rw [queryLoop, if_neg hne, find_zero_eq_none hamp]
      simp only [Option.elim_none, hfind, Url.decode_eq hpart, Option.bind_eq_bind, Option.bind_some, hadd]
    · rw [queryLoop, if_neg (by simp), find_zero_eq_some rest hamp]
      simp only [Option.elim_some, List.take_left, hfind, Url.decode_eq hpart, drop_append_cons,
        Option.bind_eq_bind, Option.bind_some, hadd]
  · obtain ⟨hkey', hval⟩ := hpart.of_append_cons (by decide)
    have hadd : Url.addPart query (key ++ ch '=' :: val) =
        query.push (Url.percentDecode key) (Url.percentDecode val) := by
      rw [Url.addPart, show sv "=" = [ch '='] from rfl, cut_singleton_append hkey]
    constructor
    · intro hne
      rw [queryLoop, if_neg hne, find_zero_eq_none hamp]
      simp only [Option.elim_none, hfind, List.take_left, drop_append_cons, Url.decode_eq hkey',
        Url.decode_eq hval, Option.bind_eq_bind, Option.bind_some, hadd]
    · rw [queryLoop, if_neg (by simp), find_zero_eq_some rest hamp]
      simp only [Option.elim_some, List.take_left, hfind, drop_append_cons, Url.decode_eq hkey',
        Url.decode_eq hval, Option.bind_eq_bind, Option.bind_some, hadd]

/-- The loop over the parameters. -/
theorem queryLoop_eq {raw : Bytes} (hraw : Url.Escaped raw) {fuel : ℕ} (hfuel : raw.length < fuel)
    (query : QueryValues) :
    queryLoop fuel query raw = some ((Url.queryParts raw).foldl Url.addPart query) := by
  induction fuel generalizing raw query with
  | zero => exact absurd hfuel (Nat.not_lt_zero _)
  | succ fuel ih =>
    by_cases hamp : ch '&' ∈ raw
    · obtain ⟨part, rest, rfl, hpart⟩ := List.eq_append_cons_of_mem hamp
      obtain ⟨hescaped, hrest⟩ := hraw.of_append_cons (by decide)
      have hlen : rest.length < fuel := by
        simp only [List.length_append, List.length_cons] at hfuel
        omega
      rw [(queryLoop_part hescaped hpart fuel query rest).2, ih hrest hlen, Url.queryParts_append hpart,
        List.foldl_cons]
    · rw [Url.queryParts_of_not_mem hamp]
      split_ifs with hnil
      · rw [hnil, queryLoop, if_pos rfl, List.foldl_nil]
      · rw [(queryLoop_part hraw hamp fuel query []).1 hnil]
        rfl

/-! ## The states of the parser -/

section States

variable {p : UrlParser} {pre t : Bytes} {c : Byte} {parts : UrlParts}

theorem At.reads_fragment (h : p.At .fragment t parts) : p.Reads (parts.readFragment t) := by
  rw [UrlParts.readFragment]
  split_ifs with ht
  · subst ht
    exact h.reads_nil (by decide)
  · refine Reads.step (h.lt ht) (by rw [UrlParser.step, h.state]) (reads_done rfl ?_ ?_)
    · rw [parseFragment, h.drop_start, h.out]
      rfl
    · exact { h.escaped with fragment := h.text }

theorem At.reads_query (h : p.At .query t parts) : p.Reads (parts.readQuery t) := by
  rw [UrlParts.readQuery]
  split_ifs with hnil
  · subst hnil
    exact h.reads_nil (by decide)
  have hempty : p.out.query = .empty := by
    rw [h.out, UrlParts.url, h.query (by decide)]
    rfl
  have hstep : p.step = p.parseQuery := by rw [UrlParser.step, h.state]
  obtain ⟨pre, hinput, hstart, -⟩ := h.input
  by_cases hhash : ch '#' ∈ t
  · -- The query ends where a fragment starts.
    obtain ⟨raw, rest, rfl, hraw⟩ := List.eq_append_cons_of_mem hhash
    obtain ⟨hescaped, hrest⟩ := h.text.of_append_cons (by decide)
    have hquery := queryLoop_eq hescaped (Nat.lt_succ_self raw.length) .empty
    have hparse : p.parseQuery = some
        { p with
          out := { p.out with query := Url.queryValues raw }
          state := .fragment
          start := pre.length + raw.length + 1
          stop := pre.length + raw.length + 1 } := by
      rw [parseQuery, hinput, hstart, find_eq_some pre rest hraw]
      dsimp only
      rw [Nat.add_sub_cancel_left, substr_append, hempty, hquery]
      rfl
    rw [show sv "#" = [ch '#'] from rfl, cut_singleton_append hraw]
    refine Reads.step (h.lt hnil) (hstep.trans hparse) (At.reads_fragment ⟨rfl,
      ⟨pre ++ raw ++ [ch '#'], ?_, ?_, ?_⟩, ?_, hrest, ⟨h.escaped.scheme, h.escaped.userinfo,
      h.escaped.host, h.escaped.port, h.escaped.path, h.escaped.fragment⟩, fun h => absurd rfl h⟩)
    · change p.input = _
      rw [hinput]
      simp
    · simp [Nat.add_assoc]
    · simp [Nat.add_assoc]
    · change { p.out with query := Url.queryValues raw } = _
      rw [h.out]
      rfl
  · -- Without one, it is all that is left.
    have hquery := queryLoop_eq h.text (Nat.lt_succ_self t.length) .empty
    have hparse : p.parseQuery = some
        { p with
          out := { p.out with query := Url.queryValues t }
          state := .done
          stop := p.input.length } := by
      rw [parseQuery, hinput, hstart, find_eq_none pre hhash]
      dsimp only
      rw [List.drop_left, hempty, hquery]
      rfl
    rw [show sv "#" = [ch '#'] from rfl, cut_singleton_of_not_mem hhash]
    refine Reads.step (h.lt hnil) (hstep.trans hparse) (reads_done rfl ?_ ⟨h.escaped.scheme,
      h.escaped.userinfo, h.escaped.host, h.escaped.port, h.escaped.path, h.escaped.fragment⟩)
    change { p.out with query := Url.queryValues t } = _
    rw [h.out]
    rfl

/-- A delimiter behind the path. -/
theorem dispatch_afterPath (hinput : p.input = pre ++ c :: t) (hout : p.out = parts.url)
    (hc : c ∈ sv "?#") (ht : Url.Escaped t) (hparts : parts.Escaped) (hquery : parts.query = none) :
    (p.dispatch pre.length c).Reads (parts.afterPath (c :: t)) := by
  have hinput' : ∃ pre', p.input = pre' ++ t ∧ pre.length + 1 = pre'.length ∧
      pre.length + 1 = pre'.length :=
    ⟨pre ++ [c], by simp [hinput], by simp, by simp⟩
  rw [UrlParts.afterPath]
  rcases List.mem_pair.1 hc with rfl | rfl
  · exact At.reads_query ⟨rfl, hinput', hout, ht, hparts, fun _ => hquery⟩
  · exact At.reads_fragment ⟨rfl, hinput', hout, ht, hparts, fun _ => hquery⟩

/-- A part up to the first of the delimiters: the parser goes on where these lead to. -/
theorem At.reads_parseUpTo {state : UrlParseState} {delims : Bytes} {set : Url → Bytes → Url}
    {parts' : UrlParts} {after : Bytes → Option UrlParts} (h : p.At state t parts)
    (hset : set parts.url (cut delims t).1 = parts'.url) (hparts' : parts'.Escaped)
    (hnil : after [] = some parts')
    (hafter : ∀ (q : UrlParser) (pre : Bytes) (c : Byte) (r : Bytes), q.input = pre ++ c :: r →
      q.out = parts'.url → c ∈ delims → Url.Escaped (c :: r) →
      (q.dispatch pre.length c).Reads (after (c :: r))) :
    (p.parseUpTo delims set).Reads (after (cut delims t).2) := by
  obtain ⟨pre, hinput, hstart, -⟩ := h.input
  obtain ⟨htext, hs, hhead⟩ := cut_spec delims t
  have hescaped := h.text
  obtain ⟨s, r, hcut⟩ : ∃ s r, cut delims t = (s, r) := ⟨_, _, rfl⟩
  rw [hcut] at htext hs hhead hset ⊢
  have hs' : ∀ b ∈ s, delims.contains b = false := by
    intro b hb
    rw [List.contains_eq_mem, decide_eq_false_iff_not]
    exact fun hmem => hs b hmem hb
  rw [← htext] at hinput hescaped
  rw [UrlParser.parseUpTo, findFirstOf, hinput, hstart, h.out]
  rcases r with _ | ⟨c, r⟩
  · -- Without a delimiter, the part goes to the end of the text.
    rw [hnil, List.append_nil, findFirst_eq_none pre hs', List.drop_left]
    exact reads_done rfl hset hparts'
  · have hc : c ∈ delims := hhead c rfl
    have hget : (pre ++ (s ++ c :: r)).getD (pre.length + s.length) 0 = c := by simp
    rw [findFirst_eq_some pre r hs' (by simpa using hc)]
    dsimp only
    rw [Nat.add_sub_cancel_left, substr_append, hget, hset, ← List.length_append]
    exact hafter _ (pre ++ s) c r (by simp) rfl hc hescaped.of_append

theorem At.reads_path (h : p.At .path t parts) : p.Reads (parts.readPath t) := by
  rw [UrlParts.readPath]
  split_ifs with hnil
  · subst hnil
    exact h.reads_nil (by decide)
  · have hstep : p.step = some p.parsePath := by rw [UrlParser.step, h.state]
    have hparts : UrlParts.Escaped { parts with path := (cut (sv "?#") t).1 } :=
      { h.escaped with path := h.text.cut (by decide) }
    refine Reads.step (h.lt hnil) hstep (h.reads_parseUpTo ?_ hparts rfl ?_)
    · rfl
    · intro q pre c r hinput hout hc hr
      exact dispatch_afterPath hinput hout hc hr.tail hparts (h.query (by decide))

/-- A delimiter behind the port. -/
theorem dispatch_afterPort (hinput : p.input = pre ++ c :: t) (hout : p.out = parts.url)
    (hc : c ∈ sv "/?#") (ht : Url.Escaped (c :: t)) (hparts : parts.Escaped)
    (hquery : parts.query = none) : (p.dispatch pre.length c).Reads (parts.afterPort (c :: t)) := by
  rw [UrlParts.afterPort]
  rcases List.mem_cons.1 (show c ∈ ch '/' :: sv "?#" from hc) with rfl | hc
  · rw [List.head?_cons, if_pos rfl]
    exact At.reads_path ⟨rfl, ⟨pre, hinput, rfl, rfl⟩, hout, ht, hparts, fun _ => hquery⟩
  · have hne : (c :: t).head? ≠ some (ch '/') := by
      rintro h
      cases h
      exact absurd hc (by decide)
    rw [if_neg hne]
    exact dispatch_afterPath hinput hout hc ht.tail hparts hquery

theorem At.reads_port (h : p.At .port t parts) : p.Reads (parts.readPort t) := by
  rw [UrlParts.readPort]
  split_ifs with hnil
  · subst hnil
    exact h.reads_nil (by decide)
  · have hstep : p.step = some p.parsePort := by rw [UrlParser.step, h.state]
    have hparts : UrlParts.Escaped { parts with port := some (cut (sv "/?#") t).1 } :=
      { h.escaped with port := h.text.cut (by decide) }
    refine Reads.step (h.lt hnil) hstep (h.reads_parseUpTo ?_ hparts rfl ?_)
    · rfl
    · intro q pre c r hinput hout hc hr
      exact dispatch_afterPort hinput hout hc hr hparts (h.query (by decide))

/-- A delimiter behind the host. -/
theorem dispatch_afterHost (hinput : p.input = pre ++ c :: t) (hout : p.out = parts.url)
    (hc : c ∈ sv ":/?#") (ht : Url.Escaped (c :: t)) (hparts : parts.Escaped)
    (hquery : parts.query = none) : (p.dispatch pre.length c).Reads (parts.afterHost (c :: t)) := by
  rw [UrlParts.afterHost]
  rcases List.mem_cons.1 (show c ∈ ch ':' :: sv "/?#" from hc) with rfl | hc
  · rw [List.head?_cons, if_pos rfl]
    exact At.reads_port ⟨rfl, ⟨pre ++ [ch ':'], by simp [dispatch, hinput], by simp [dispatch],
      by simp [dispatch]⟩, hout, ht.tail, hparts, fun _ => hquery⟩
  · have hne : (c :: t).head? ≠ some (ch ':') := by
      rintro h
      cases h
      exact absurd hc (by decide)
    rw [if_neg hne]
    exact dispatch_afterPort hinput hout hc ht hparts hquery

theorem At.reads_host (h : p.At .host t parts) : p.Reads (parts.readHost t) := by
  rw [UrlParts.readHost]
  split_ifs with hnil
  · subst hnil
    exact h.reads_nil (by decide)
  · have hstep : p.step = some p.parseHost := by rw [UrlParser.step, h.state]
    have hparts : UrlParts.Escaped { parts with host := (cut (sv ":/?#") t).1 } :=
      { h.escaped with host := h.text.cut (by decide) }
    refine Reads.step (h.lt hnil) hstep (h.reads_parseUpTo ?_ hparts rfl ?_)
    · rfl
    · intro q pre c r hinput hout hc hr
      exact dispatch_afterHost hinput hout hc hr hparts (h.query (by decide))

theorem At.reads_userinfo (h : p.At .userinfo t parts) (hparts : parts.userinfo = none) :
    p.Reads (parts.readUserinfo t) := by
  rw [UrlParts.readUserinfo]
  split_ifs with hnil
  · subst hnil
    exact h.reads_nil (by decide)
  have hstep : p.step = some p.parseUserinfo := by rw [UrlParser.step, h.state]
  obtain ⟨pre, hinput, hstart, hstop⟩ := h.input
  by_cases hat : ch '@' ∈ t
  · obtain ⟨userinfo, rest, rfl, huserinfo⟩ := List.eq_append_cons_of_mem hat
    obtain ⟨hescaped, hrest⟩ := h.text.of_append_cons (by decide)
    have hparse : p.parseUserinfo =
        { p with
          out := { p.out with userinfo := Url.userinfoOf userinfo }
          state := .host
          start := pre.length + userinfo.length + 1
          stop := pre.length + userinfo.length + 1 } := by
      have hempty : p.out.userinfo = {} := by
        rw [h.out, UrlParts.url, hparts]
        rfl
      rw [parseUserinfo, hinput, hstart, find_eq_some pre rest huserinfo]
      dsimp only
      rw [Nat.add_sub_cancel_left, substr_append, ← hinput, Url.userinfoOf, show sv ":" = [ch ':'] from rfl]
      rcases find_zero_cases userinfo (ch ':') with ⟨hnot, hfind⟩ | ⟨a, b, rfl, ha, hfind⟩
      · rw [hfind, cut_singleton_of_not_mem hnot, hempty]
        rfl
      · -- The length asked for is too large by what is before the userinfo, and cut to what there is.
        have hpassword : substr (a ++ ch ':' :: b) (a.length + 1)
            (pre.length + (a ++ ch ':' :: b).length - (a.length + 1)) = b := by
          rw [substr_append_cons]
          refine List.take_of_length_le ?_
          rw [List.length_append, List.length_cons]
          omega
        rw [hfind, cut_singleton_append ha]
        dsimp only
        rw [hpassword, List.take_left]
        rfl
    rw [show sv "@" = [ch '@'] from rfl, cut_singleton_append huserinfo]
    refine Reads.step (h.lt hnil) (hstep.trans (congrArg some hparse)) (At.reads_host ⟨rfl,
      ⟨pre ++ userinfo ++ [ch '@'], ?_, ?_, ?_⟩, ?_, hrest, { h.escaped with userinfo := hescaped },
      fun _ => h.query (by decide)⟩)
    · change p.input = _
      rw [hinput]
      simp
    · simp [Nat.add_assoc]
    · simp [Nat.add_assoc]
    · change { p.out with userinfo := Url.userinfoOf userinfo } = _
      rw [h.out]
      rfl
  · have hparse : p.parseUserinfo = { p with state := .host } := by
      rw [parseUserinfo, hinput, hstart, find_eq_none pre hat, ← hinput]
    rw [show sv "@" = [ch '@'] from rfl, cut_singleton_of_not_mem hat]
    exact Reads.step (h.lt hnil) (hstep.trans (congrArg some hparse)) (At.reads_host
      ⟨rfl, ⟨pre, hinput, hstart, hstop⟩, h.out, h.text, h.escaped, fun _ => h.query (by decide)⟩)

theorem At.reads_authority (h : p.At .authority t parts) (hparts : parts.userinfo = none) :
    p.Reads (parts.readAuthority t) := by
  rw [UrlParts.readAuthority]
  split_ifs with hnil hslashes
  · subst hnil
    exact h.reads_nil (by decide)
  · -- Behind the slashes, there is an authority.
    obtain ⟨rest, rfl⟩ := hslashes
    obtain ⟨pre, hinput, hstart, hstop⟩ := h.input
    have hcond : p.stop + 1 < p.input.length ∧ p.input[p.start]? = some (ch '/') ∧
        p.input[p.stop + 1]? = some (ch '/') := by
      rw [hinput, hstart, hstop]
      simp [sv]
    have hstep : p.step = some
        { p with state := .userinfo, start := p.stop + 1 + 1, stop := p.stop + 1 + 1 } := by
      rw [UrlParser.step, h.state]
      dsimp only
      rw [parseAuthority]
      exact congrArg some (if_pos hcond)
    refine Reads.step (h.lt hnil) hstep (At.reads_userinfo ⟨rfl, ⟨pre ++ sv "//", ?_, ?_, ?_⟩, h.out,
      h.text.of_append, h.escaped, fun _ => h.query (by decide)⟩ hparts)
    · change p.input = _
      rw [hinput, List.append_assoc]
      rfl
    · change p.stop + 2 = _
      rw [hstop, List.length_append]
      rfl
    · change p.stop + 2 = _
      rw [hstop, List.length_append]
      rfl
  · -- There is none, and the text is looked at again, as a path.
    obtain ⟨pre, hinput, hstart, hstop⟩ := h.input
    have hcond : ¬(p.stop + 1 < p.input.length ∧ p.input[p.start]? = some (ch '/') ∧
        p.input[p.stop + 1]? = some (ch '/')) := by
      rw [hinput, hstart, hstop]
      rintro ⟨-, h₁, h₂⟩
      refine hslashes ?_
      rcases t with _ | ⟨x, _ | ⟨y, t⟩⟩
      · exact absurd rfl hnil
      · simp at h₂
      · obtain rfl : x = ch '/' := by simpa using h₁
        obtain rfl : y = ch '/' := by simpa using h₂
        exact ⟨t, rfl⟩
    have hstep : p.step = some { p with state := .path, stop := p.start } := by
      rw [UrlParser.step, h.state]
      dsimp only
      rw [parseAuthority]
      exact congrArg some (if_neg hcond)
    exact Reads.step (h.lt hnil) hstep (At.reads_path ⟨rfl, ⟨pre, hinput, hstart, hstart⟩, h.out, h.text,
      h.escaped, fun _ => h.query (by decide)⟩)

/-- The search for the end of the scheme goes on, up to a `:` or to the last byte of the text. -/
theorem reads_skip {result : Option UrlParts} {n d : ℕ} (hlt : n + d < t.length)
    (hcolon : ch ':' ∉ (t.drop n).take d) (h : Reads { input := t, stop := n + d } result) :
    Reads { input := t, stop := n } result := by
  induction d generalizing n with
  | zero => exact h
  | succ d ih =>
    have hget : t[n]? ≠ some (ch ':') := by
      intro heq
      refine hcolon ?_
      rw [List.drop_eq_getElem_cons (by omega), List.take_succ_cons]
      rw [List.getElem?_eq_getElem (by omega)] at heq
      rw [Option.some.inj heq]
      exact List.mem_cons_self
    have hstep : UrlParser.step { input := t, stop := n } = some { input := t, stop := n + 1 } := by
      change some (parseScheme _) = _
      rw [parseScheme, if_pos hget]
      dsimp only
      rw [if_neg (by omega)]
    refine Reads.step (show n < t.length by omega) hstep (ih (by omega) ?_ ?_)
    · intro hmem
      refine hcolon ?_
      rw [List.drop_eq_getElem_cons (by omega), List.take_succ_cons]
      exact List.mem_cons_of_mem _ hmem
    · rwa [Nat.add_assoc, Nat.add_comm 1 d]

/-- Without a scheme, the parser goes back to the start. -/
theorem reads_no_scheme {result : Option UrlParts} (hnil : t ≠ []) (hcolon : ch ':' ∉ t)
    (h : Reads
      { input := t
        state :=
          if sv "//" <+: t then .authority
          else if t.head? = some (ch '/') then .path
          else .host } result) : Reads { input := t } result := by
  have hpos := List.length_pos_iff.2 hnil
  have hget : t[t.length - 1]? ≠ some (ch ':') := fun heq => hcolon (List.mem_of_getElem? heq)
  have hstep : UrlParser.step { input := t, stop := t.length - 1 } = some
      { input := t
        state :=
          if sv "//" <+: t then .authority
          else if t.head? = some (ch '/') then .path
          else .host } := by
    change some (parseScheme _) = _
    rw [parseScheme, if_pos hget]
    dsimp only
    rw [if_pos (by omega)]
  refine reads_skip (n := 0) (d := t.length - 1) (by omega) (fun hmem => ?_) ?_
  · exact hcolon (List.mem_of_mem_drop (List.mem_of_mem_take hmem))
  · rw [Nat.zero_add]
    exact Reads.step (show t.length - 1 < t.length by omega) hstep h

/-- What the parser reads of a text are its parts. -/
theorem reads_ofText (ht : Url.Escaped t) : Reads { input := t } (UrlParts.ofText t) := by
  rw [UrlParts.ofText, show sv ":" = [ch ':'] from rfl]
  have hnone : UrlParts.Escaped {} := ⟨trivial, trivial, trivial, trivial, trivial, trivial⟩
  by_cases hcolon : ch ':' ∈ t
  · -- The first colon ends the scheme.
    obtain ⟨scheme, rest, rfl, hscheme⟩ := List.eq_append_cons_of_mem hcolon
    obtain ⟨hescaped, hrest⟩ := ht.of_append_cons (by decide)
    have hget : (scheme ++ ch ':' :: rest)[scheme.length]? = some (ch ':') := by simp
    have hstep : UrlParser.step { input := scheme ++ ch ':' :: rest, stop := scheme.length } = some
        { input := scheme ++ ch ':' :: rest
          out := { scheme }
          state := .authority
          start := scheme.length + 1
          stop := scheme.length + 1 } := by
      change some (parseScheme _) = _
      rw [parseScheme, if_neg (not_not.2 hget)]
      simp [substr]
    rw [cut_singleton_append hscheme]
    have hlt : scheme.length < (scheme ++ ch ':' :: rest).length := by simp
    refine reads_skip (n := 0) (d := scheme.length) (by omega) ?_ ?_
    · rwa [List.drop_zero, List.take_left]
    · rw [Nat.zero_add]
      refine Reads.step hlt hstep (At.reads_authority ⟨rfl, ⟨scheme ++ [ch ':'], ?_, ?_, ?_⟩, rfl, hrest,
        { hnone with scheme := hescaped }, fun _ => rfl⟩ rfl)
      · simp
      · simp
      · simp
  · -- Without one, what the text starts with decides what it is read as.
    rw [cut_singleton_of_not_mem hcolon]
    dsimp only
    split_ifs with hnil hslashes hslash
    · subst hnil
      exact At.reads_nil ⟨rfl, ⟨[], rfl, rfl, rfl⟩, rfl, trivial, hnone, fun _ => rfl⟩ (by decide)
    · refine reads_no_scheme hnil hcolon (At.reads_authority ⟨?_, ⟨[], rfl, rfl, rfl⟩, rfl, ht, hnone,
        fun _ => rfl⟩ rfl)
      exact if_pos hslashes
    · refine reads_no_scheme hnil hcolon (At.reads_path ⟨?_, ⟨[], rfl, rfl, rfl⟩, rfl, ht, hnone,
        fun _ => rfl⟩)
      exact (if_neg hslashes).trans (if_pos hslash)
    · refine reads_no_scheme hnil hcolon (At.reads_host ⟨?_, ⟨[], rfl, rfl, rfl⟩, rfl, ht, hnone,
        fun _ => rfl⟩)
      exact (if_neg hslashes).trans (if_neg hslash)

end States

theorem decodePart_eq {s : Bytes} (hs : Url.Escaped s) : decodePart s = some (Url.percentDecode s) := by
  rw [decodePart]
  split_ifs with h
  · rw [h]
    rfl
  · exact Url.decode_eq hs

theorem decodeParts_eq {parts : UrlParts} (h : parts.Escaped) :
    decodeParts parts.url = some parts.url.decoded := by
  have husername : Url.Escaped (Url.userinfoOf (parts.userinfo.getD [])).username :=
    h.userinfo.cut (by decide)
  have hpassword : Url.Escaped (Url.userinfoOf (parts.userinfo.getD [])).password := by
    obtain ⟨htext, -, -⟩ := cut_spec (sv ":") (parts.userinfo.getD [])
    have hrest : Url.Escaped (cut (sv ":") (parts.userinfo.getD [])).2 := by
      refine Url.Escaped.of_append (a := (cut (sv ":") (parts.userinfo.getD [])).1) ?_
      rw [htext]
      exact h.userinfo
    rw [Url.userinfoOf]
    rcases hr : (cut (sv ":") (parts.userinfo.getD [])).2 with _ | ⟨c, r⟩
    · trivial
    · rw [hr] at hrest
      exact hrest.tail
  simp only [decodeParts, UrlParts.url, decodePart_eq h.scheme, decodePart_eq husername,
    decodePart_eq hpassword, decodePart_eq h.host, decodePart_eq h.port, decodePart_eq h.path,
    decodePart_eq h.fragment, Option.bind_eq_bind, Option.bind_some]
  rfl

end UrlParser

/-- `parse` accepts the texts that have parts, and gives the components made of them. -/
theorem Url.parse_eq {s : Bytes} (hs : Url.Escaped s) :
    (∀ parts, UrlParts.ofText s = some parts → Url.parse s = some (.ok parts.url.decoded)) ∧
      (UrlParts.ofText s = none → ∃ failure, Url.parse s = some (.error failure)) := by
  obtain ⟨q, hret, hq⟩ := UrlParser.reads_ofText hs
  have hlt : UrlParser.measure { input := s } < 9 * (s.length + 1) := by
    change 8 * (s.length + 1) + (s.length - 0) < _
    omega
  have hrun := hret.run_of_measure UrlParser.measure (fun _ _ h => UrlParser.turn_measure h) hlt
  constructor
  · intro parts hparts
    rw [hparts] at hq
    obtain ⟨hstate, hout, hescaped⟩ := hq
    simp only [Url.parse, hrun, hout, UrlParser.decodeParts_eq hescaped, hstate, Option.bind_eq_bind,
      Option.bind_some, ne_eq, not_true, if_false]
  · intro hnone
    rw [hnone] at hq
    obtain ⟨hstate, parts, hout, hescaped⟩ := hq
    refine ⟨⟨q.state, q.stop⟩, ?_⟩
    simp only [Url.parse, hrun, hout, UrlParser.decodeParts_eq hescaped, hstate, Option.bind_eq_bind,
      Option.bind_some, ne_eq, not_false_eq_true, if_true]

theorem Url.parse_eq_ok_iff {s : Bytes} (hs : Url.Escaped s) {u : Url} :
    Url.parse s = some (.ok u) ↔ ∃ parts, UrlParts.ofText s = some parts ∧ parts.url.decoded = u := by
  obtain ⟨hok, herror⟩ := Url.parse_eq hs
  constructor
  · intro h
    rcases hparts : UrlParts.ofText s with _ | parts
    · obtain ⟨failure, hfailure⟩ := herror hparts
      rw [hfailure] at h
      cases h
    · rw [hok parts hparts] at h
      exact ⟨parts, rfl, Except.ok.inj (Option.some.inj h)⟩
  · rintro ⟨parts, hparts, rfl⟩
    exact hok parts hparts

end Cppnet
