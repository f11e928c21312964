import Cppnet.Url.Parts

/-!
# Texts and their parts

The parts of a text, with the delimiters between them, are the text again; and parts without these
delimiters inside of them are the parts of their text. So what is read from a position on is given
by what is there (`readPath_iff`, `readHost_iff`).
-/

namespace Cppnet

open Lib

namespace UrlParts

/-- The text of the fragment. -/
def fragmentText (p : UrlParts) : Bytes := p.fragment.elim [] (ch '#' :: ·)

/-- The text of the query. -/
def queryText (p : UrlParts) : Bytes := p.query.elim [] (ch '?' :: ·)

/-- The text of the port. -/
def portText (p : UrlParts) : Bytes := p.port.elim [] (ch ':' :: ·)

/-- The text from the path on. -/
def pathText (p : UrlParts) : Bytes := p.path ++ (p.queryText ++ p.fragmentText)

/-- The text from the host on. -/
def hostText (p : UrlParts) : Bytes := p.host ++ (p.portText ++ p.pathText)

/-- The text of the userinfo. -/
def userinfoText (p : UrlParts) : Bytes := p.userinfo.elim [] (· ++ [ch '@'])

/-- The text of the scheme. -/
def schemeText (p : UrlParts) : Bytes := p.scheme.elim [] (· ++ [ch ':'])

/-- No delimiters inside of the path and the query, and something behind the last delimiter. -/
structure PathOk (p : UrlParts) : Prop where
  path : ∀ c ∈ sv "?#", c ∉ p.path
  query : ch '#' ∉ p.query.getD []
  fragment_ne : p.fragment ≠ some []
  query_ne : p.fragment = none → p.query ≠ some []

/-- No delimiters inside of the host and what is behind it, and something behind the last delimiter. -/
structure HostOk (p : UrlParts) : Prop extends PathOk p where
  host : ∀ c ∈ sv ":/?#", c ∉ p.host
  port : ∀ c ∈ sv "/?#", c ∉ p.port.getD []
  path_head : ∀ c ∈ p.path.head?, c = ch '/'
  port_ne : p.pathText = [] → p.port ≠ some []

/-- No delimiters inside of the parts, and something behind the last delimiter. -/
structure Ok (p : UrlParts) : Prop extends PathOk p where
  scheme : ch ':' ∉ p.scheme.getD []
  userinfo : ch '@' ∉ p.userinfo.getD []
  host : ∀ c ∈ sv ":/?#", c ∉ p.host
  port : ∀ c ∈ sv "/?#", c ∉ p.port.getD []
  port_ne : p.pathText = [] → p.port ≠ some []
  hostText_ne : p.hostText ≠ []

theorem head_queryText (p : UrlParts) : ∀ c ∈ (p.queryText ++ p.fragmentText).head?, c ∈ sv "?#" := by
  rw [queryText, fragmentText]
  rcases p.query with _ | y
  · rcases p.fragment with _ | f
    · simp
    · exact fun c hc => Option.some.inj hc ▸ by decide
  · exact fun c hc => Option.some.inj hc ▸ by decide

theorem head_pathText {p : UrlParts} (hp : ∀ c ∈ p.path.head?, c = ch '/') :
    ∀ c ∈ p.pathText.head?, c ∈ sv "/?#" := by
  rw [pathText]
  rcases hr : p.path with _ | ⟨x, r⟩
  · exact fun c hc => List.mem_cons_of_mem _ (head_queryText p c hc)
  · rw [hr] at hp
    intro c hc
    rw [← Option.some.inj hc, hp x rfl]
    decide

section Read

variable {a b q y : Option Bytes} {h r t : Bytes} {p : UrlParts}

theorem readFragment_iff : readFragment ⟨a, b, h, q, r, y, none⟩ t = some p ↔
    t ≠ [] ∧ p = ⟨a, b, h, q, r, y, some t⟩ := by
  rw [readFragment]
  split_ifs with ht
  · simp [ht]
  · rw [Option.some.injEq]
    exact ⟨fun hp => ⟨ht, hp.symm⟩, fun hp => hp.2.symm⟩

theorem readQuery_iff : readQuery ⟨a, b, h, q, r, none, none⟩ t = some p ↔
    ∃ y f, p = ⟨a, b, h, q, r, some y, f⟩ ∧ t = y ++ f.elim [] (ch '#' :: ·) ∧ ch '#' ∉ y ∧
      f ≠ some [] ∧ (f = none → y ≠ []) := by
  rw [readQuery, show sv "#" = [ch '#'] from rfl]
  constructor
  · split_ifs with ht
    · intro hp
      cases hp
    · by_cases hhash : ch '#' ∈ t
      · obtain ⟨y, f, rfl, hy⟩ := List.eq_append_cons_of_mem hhash
        rw [cut_singleton_append hy, readFragment_iff]
        rintro ⟨hf, rfl⟩
        exact ⟨y, some f, rfl, rfl, hy, by simpa using hf, by simp⟩
      · rw [cut_singleton_of_not_mem hhash]
        intro hp
        exact ⟨t, none, (Option.some.inj hp).symm, by simp, hhash, by simp, fun _ => ht⟩
  · rintro ⟨y, f, rfl, rfl, hy, hf, hne⟩
    rcases f with _ | f
    · rw [if_neg (by simpa using hne), Option.elim_none, List.append_nil, cut_singleton_of_not_mem hy]
    · rw [if_neg (by simp), Option.elim_some, cut_singleton_append hy, readFragment_iff]
      exact ⟨by simpa using hf, rfl⟩

theorem afterPath_iff (ht : ∀ c ∈ t.head?, c ∈ sv "?#") :
    afterPath ⟨a, b, h, q, r, none, none⟩ t = some p ↔
      ∃ y f, p = ⟨a, b, h, q, r, y, f⟩ ∧ t = y.elim [] (ch '?' :: ·) ++ f.elim [] (ch '#' :: ·) ∧
        ch '#' ∉ y.getD [] ∧ f ≠ some [] ∧ (f = none → y ≠ some []) := by
  constructor
  · rcases t with _ | ⟨c, t⟩
    · rw [afterPath]
      intro hp
      exact ⟨none, none, (Option.some.inj hp).symm, rfl, by simp, by simp, by simp⟩
    · rw [afterPath]
      split_ifs with hc
      · rw [readQuery_iff]
        rintro ⟨y, f, rfl, rfl, hy, hf, hne⟩
        exact ⟨some y, f, rfl, by simp [hc], hy, hf, fun h => by simpa using hne h⟩
      · obtain rfl : c = ch '#' := (List.mem_pair.1 (ht c rfl)).resolve_left hc
        rw [readFragment_iff]
        rintro ⟨hf, rfl⟩
        exact ⟨none, some t, rfl, rfl, by simp, by simpa using hf, by simp⟩
  · rintro ⟨y, f, rfl, rfl, hy, hf, hne⟩
    rcases y with _ | y
    · rcases f with _ | f
      · rfl
      · rw [Option.elim_none, Option.elim_some, List.nil_append, afterPath, if_neg (by decide),
          readFragment_iff]
        exact ⟨by simpa using hf, rfl⟩
    · rw [Option.elim_some, List.cons_append, afterPath, if_pos rfl, readQuery_iff]
      exact ⟨y, f, rfl, rfl, hy, hf, fun h => by simpa using hne h⟩

/-- What is read from the path on. -/
theorem readPath_iff : readPath ⟨a, b, h, q, [], none, none⟩ t = some p ↔
    p.scheme = a ∧ p.userinfo = b ∧ p.host = h ∧ p.port = q ∧ p.pathText = t ∧ t ≠ [] ∧ p.PathOk := by
  rw [readPath]
  obtain ⟨htext, hpath, hhead⟩ := cut_spec (sv "?#") t
  constructor
  · split_ifs with ht
    · intro hp
      cases hp
    · rw [afterPath_iff hhead]
      rintro ⟨y, f, rfl, hrest, hy, hf, hne⟩
      rw [hrest] at htext
      exact ⟨rfl, rfl, rfl, rfl, htext, ht, hpath, hy, hf, hne⟩
  · rintro ⟨rfl, rfl, rfl, rfl, rfl, ht, hp⟩
    have hhead' : ∀ c ∈ (p.queryText ++ p.fragmentText).head?, c ∈ sv "?#" := head_queryText p
    have hcut : cut (sv "?#") p.pathText = (p.path, p.queryText ++ p.fragmentText) :=
      cut_append hp.path hhead'
    rw [if_neg ht, hcut, afterPath_iff hhead']
    exact ⟨p.query, p.fragment, rfl, rfl, hp.query, hp.fragment_ne, hp.query_ne⟩

/-- What is read behind the port. -/
theorem afterPort_iff (ht : ∀ c ∈ t.head?, c ∈ sv "/?#") :
    afterPort ⟨a, b, h, q, [], none, none⟩ t = some p ↔
      p.scheme = a ∧ p.userinfo = b ∧ p.host = h ∧ p.port = q ∧ p.pathText = t ∧ p.PathOk ∧
        ∀ c ∈ p.path.head?, c = ch '/' := by
  rw [afterPort]
  split_ifs with hslash
  · rw [readPath_iff]
    constructor
    · rintro ⟨ha, hb, hh, hq, htext, -, hp⟩
      refine ⟨ha, hb, hh, hq, htext, hp, fun c hc => ?_⟩
      rw [← htext, pathText, List.head?_append, Option.mem_def.1 hc, Option.some_or] at hslash
      exact Option.some.inj hslash
    · rintro ⟨ha, hb, hh, hq, htext, hp, -⟩
      refine ⟨ha, hb, hh, hq, htext, ?_, hp⟩
      rintro rfl
      cases hslash
  · -- No path: a query or a fragment is next.
    have ht' : ∀ c ∈ t.head?, c ∈ sv "?#" := by
      intro c hc
      refine (List.mem_cons.1 (show c ∈ ch '/' :: sv "?#" from ht c hc)).resolve_left ?_
      rintro rfl
      exact hslash hc
    rw [afterPath_iff ht']
    constructor
    · rintro ⟨y, f, rfl, rfl, hy, hf, hne⟩
      exact ⟨rfl, rfl, rfl, rfl, rfl, ⟨by simp, hy, hf, hne⟩, by simp⟩
    · rintro ⟨rfl, rfl, rfl, rfl, rfl, hp, hhead⟩
      -- A path would start with a slash.
      have hpath : p.path = [] := by
        rcases hr : p.path with _ | ⟨c, r⟩
        · rfl
        · rw [hr] at hhead
          rw [pathText, hr, hhead c rfl] at hslash
          exact absurd rfl hslash
      refine ⟨p.query, p.fragment, ?_, ?_, hp.query, hp.fragment_ne, hp.query_ne⟩
      · rw [← hpath]
      · rw [pathText, hpath]
        rfl

/-- What is read from the port on. -/
theorem readPort_iff : readPort ⟨a, b, h, none, [], none, none⟩ t = some p ↔
    ∃ port, p.scheme = a ∧ p.userinfo = b ∧ p.host = h ∧ p.port = some port ∧ port ++ p.pathText = t ∧
      t ≠ [] ∧ p.PathOk ∧ (∀ c ∈ p.path.head?, c = ch '/') ∧ ∀ c ∈ sv "/?#", c ∉ port := by
  rw [readPort]
  obtain ⟨htext, hport, hhead⟩ := cut_spec (sv "/?#") t
  constructor
  · split_ifs with ht
    · intro hp
      cases hp
    · rw [afterPort_iff hhead]
      rintro ⟨ha, hb, hh, hq, hrest, hp, hslash⟩
      exact ⟨_, ha, hb, hh, hq, hrest ▸ htext, ht, hp, hslash, hport⟩
  · rintro ⟨port, rfl, rfl, rfl, hq, rfl, ht, hp, hslash, hport⟩
    have hhead' := head_pathText hslash
    rw [if_neg ht, cut_append hport hhead', afterPort_iff hhead']
    exact ⟨rfl, rfl, rfl, hq, rfl, hp, hslash⟩

/-- What is read behind the host. -/
theorem afterHost_iff (ht : ∀ c ∈ t.head?, c ∈ sv ":/?#") :
    afterHost ⟨a, b, h, none, [], none, none⟩ t = some p ↔
      p.scheme = a ∧ p.userinfo = b ∧ p.host = h ∧ p.portText ++ p.pathText = t ∧ p.PathOk ∧
        (∀ c ∈ p.path.head?, c = ch '/') ∧ (∀ c ∈ sv "/?#", c ∉ p.port.getD []) ∧
        (p.pathText = [] → p.port ≠ some []) := by
  rw [afterHost]
  split_ifs with hcolon
  · obtain ⟨t, rfl⟩ := List.head?_eq_some_iff.1 hcolon
    rw [List.tail_cons, readPort_iff]
    constructor
    · rintro ⟨port, ha, hb, hh, hq, htext, ht, hp, hslash, hport⟩
      refine ⟨ha, hb, hh, ?_, hp, hslash, by rwa [hq], fun hnil hempty => ht ?_⟩
      · rw [portText, hq, Option.elim_some, List.cons_append, htext]
      · rw [← htext, hnil, List.append_nil]
        exact Option.some.inj (hq.symm.trans hempty)
    · rintro ⟨ha, hb, hh, htext, hp, hslash, hport, hne⟩
      rw [portText] at htext
      rcases hq : p.port with _ | port
      · -- The path does not start with a colon.
        rw [hq, Option.elim_none, List.nil_append] at htext
        exact absurd (head_pathText hslash (ch ':') (by rw [htext]; rfl)) (by decide)
      · rw [hq, Option.elim_some, List.cons_append] at htext
        obtain ⟨-, htext⟩ := List.cons.inj htext
        refine ⟨port, ha, hb, hh, rfl, htext, fun hnil => ?_, hp, hslash, by rwa [hq] at hport⟩
        rw [hnil, List.append_eq_nil_iff] at htext
        exact hne htext.2 (hq.trans (congrArg some htext.1))
  · have ht' : ∀ c ∈ t.head?, c ∈ sv "/?#" := by
      intro c hc
      refine (List.mem_cons.1 (show c ∈ ch ':' :: sv "/?#" from ht c hc)).resolve_left ?_
      rintro rfl
      exact hcolon hc
    rw [afterPort_iff ht']
    constructor
    · rintro ⟨ha, hb, hh, hq, htext, hp, hslash⟩
      refine ⟨ha, hb, hh, ?_, hp, hslash, by rw [hq]; simp, fun _ => by rw [hq]; simp⟩
      rw [portText, hq, Option.elim_none, List.nil_append, htext]
    · rintro ⟨ha, hb, hh, htext, hp, hslash, -, -⟩
      rw [portText] at htext
      rcases hq : p.port with _ | port
      · rw [hq, Option.elim_none, List.nil_append] at htext
        exact ⟨ha, hb, hh, rfl, htext, hp, hslash⟩
      · rw [hq, Option.elim_some, List.cons_append] at htext
        exact absurd (by rw [← htext]; rfl) hcolon

theorem head_portText {p : UrlParts} (hp : ∀ c ∈ p.path.head?, c = ch '/') :
    ∀ c ∈ (p.portText ++ p.pathText).head?, c ∈ sv ":/?#" := by
  rw [portText]
  rcases p.port with _ | port
  · exact fun c hc => List.mem_cons_of_mem _ (head_pathText hp c hc)
  · exact fun c hc => Option.some.inj hc ▸ by decide

/-- What is read from the host on. -/
theorem readHost_iff : readHost ⟨a, b, [], none, [], none, none⟩ t = some p ↔
    p.scheme = a ∧ p.userinfo = b ∧ p.hostText = t ∧ t ≠ [] ∧ p.HostOk := by
  rw [readHost]
  obtain ⟨htext, hhost, hhead⟩ := cut_spec (sv ":/?#") t
  constructor
  · split_ifs with ht
    · intro hp
      cases hp
    · rw [afterHost_iff hhead]
      rintro ⟨ha, hb, hh, hrest, hp, hslash, hport, hne⟩
      refine ⟨ha, hb, ?_, ht, hp, hh ▸ hhost, hport, hslash, hne⟩
      rw [hostText, hrest, hh, htext]
  · rintro ⟨rfl, rfl, rfl, ht, hp⟩
    have hhead' := head_portText hp.path_head
    have hcut : cut (sv ":/?#") p.hostText = (p.host, p.portText ++ p.pathText) :=
      cut_append hp.host hhead'
    rw [if_neg ht, hcut, afterHost_iff hhead']
    exact ⟨rfl, rfl, rfl, rfl, hp.toPathOk, hp.path_head, hp.port, hp.port_ne⟩

/-- What is read from the userinfo on. -/
theorem readUserinfo_iff : readUserinfo ⟨a, none, [], none, [], none, none⟩ t = some p ↔
    p.scheme = a ∧ p.userinfoText ++ p.hostText = t ∧ p.hostText ≠ [] ∧ p.HostOk ∧
      ch '@' ∉ p.userinfo.getD [] ∧ (p.userinfo = none → ch '@' ∉ p.hostText) := by
  rw [readUserinfo, show sv "@" = [ch '@'] from rfl]
  constructor
  · split_ifs with ht
    · intro hp
      cases hp
    · by_cases hat : ch '@' ∈ t
      · obtain ⟨userinfo, t, rfl, huserinfo⟩ := List.eq_append_cons_of_mem hat
        rw [cut_singleton_append huserinfo, readHost_iff]
        rintro ⟨ha, hb, rfl, hne, hp⟩
        refine ⟨ha, ?_, hne, hp, by rwa [hb], fun h => absurd (hb.symm.trans h) (by simp)⟩
        rw [userinfoText, hb]
        simp
      · rw [cut_singleton_of_not_mem hat]
        dsimp only
        rw [readHost_iff]
        rintro ⟨ha, hb, rfl, hne, hp⟩
        refine ⟨ha, ?_, hne, hp, by rw [hb]; simp, fun _ => hat⟩
        rw [userinfoText, hb]
        rfl
  · rintro ⟨rfl, rfl, hne, hp, huserinfo, hhost⟩
    rw [if_neg (by simp [hne]), userinfoText]
    rcases hb : p.userinfo with _ | userinfo
    · rw [Option.elim_none, List.nil_append, cut_singleton_of_not_mem (hhost hb)]
      dsimp only
      rw [readHost_iff]
      exact ⟨rfl, hb, rfl, hne, hp⟩
    · rw [hb, Option.getD_some] at huserinfo
      rw [Option.elim_some, List.append_assoc, List.singleton_append, cut_singleton_append huserinfo]
      dsimp only
      rw [readHost_iff]
      exact ⟨rfl, hb, rfl, hne, hp⟩

theorem readAuthority_scheme (hp : readAuthority ⟨a, none, [], none, [], none, none⟩ t = some p) :
    p.scheme = a := by
  rw [readAuthority] at hp
  split_ifs at hp
  · exact (readUserinfo_iff.1 hp).1
  · exact (readPath_iff.1 hp).1

/-- The scheme goes up to the first `:`. -/
theorem ofText_append {scheme : Bytes} (h : ch ':' ∉ scheme) (t : Bytes) :
    ofText (scheme ++ ch ':' :: t) = readAuthority { scheme := some scheme } t := by
  rw [ofText, show sv ":" = [ch ':'] from rfl, cut_singleton_append h]

/-- Without a `:`, there is no scheme. -/
theorem ofText_of_not_mem (h : ch ':' ∉ t) :
    ofText t =
      if t = [] then none
      else if sv "//" <+: t then readUserinfo {} (t.drop 2)
      else if t.head? = some (ch '/') then readPath {} t
      else readHost {} t := by
  rw [ofText, show sv ":" = [ch ':'] from rfl, cut_singleton_of_not_mem h]
  dsimp only
  split_ifs with hnil hslashes
  · rfl
  · rw [readAuthority, if_neg hnil, if_pos hslashes]
  · rfl
  · rfl

/-- A path only. -/
theorem hostText_of_path (hhost : p.host = []) (hport : p.port = none) : p.hostText = p.pathText := by
  rw [hostText, portText, hhost, hport]
  rfl

theorem readUserinfo_spec (ha : ch ':' ∉ a.getD [])
    (hp : readUserinfo ⟨a, none, [], none, [], none, none⟩ t = some p) :
    p.Ok ∧ p.scheme = a ∧ p.userinfoText ++ p.hostText = t := by
  obtain ⟨rfl, htext, hne, hok, huserinfo, -⟩ := readUserinfo_iff.1 hp
  exact ⟨⟨hok.toPathOk, ha, huserinfo, hok.host, hok.port, hok.port_ne, hne⟩, rfl, htext⟩

theorem readPath_spec (ha : ch ':' ∉ a.getD [])
    (hp : readPath ⟨a, none, [], none, [], none, none⟩ t = some p) :
    p.Ok ∧ p.scheme = a ∧ p.userinfoText ++ p.hostText = t := by
  obtain ⟨rfl, huserinfo, hhost, hport, rfl, hne, hok⟩ := readPath_iff.1 hp
  have htext := hostText_of_path hhost hport
  refine ⟨⟨hok, ha, by simp [huserinfo], by simp [hhost], by simp [hport], by simp [hport],
    htext ▸ hne⟩, rfl, ?_⟩
  rw [userinfoText, huserinfo, htext]
  rfl

theorem readAuthority_spec (ha : ch ':' ∉ a.getD [])
    (hp : readAuthority ⟨a, none, [], none, [], none, none⟩ t = some p) :
    p.Ok ∧ p.scheme = a ∧ ∃ slashes ∈ [[], sv "//"], slashes ++ (p.userinfoText ++ p.hostText) = t := by
  rw [readAuthority] at hp
  split_ifs at hp with hnil hslashes
  · obtain ⟨hok, hscheme, htext⟩ := readUserinfo_spec ha hp
    refine ⟨hok, hscheme, sv "//", by simp, ?_⟩
    obtain ⟨rest, rfl⟩ := hslashes
    rw [htext]
    rfl
  · obtain ⟨hok, hscheme, htext⟩ := readPath_spec ha hp
    exact ⟨hok, hscheme, [], by simp, htext⟩

/-- The parts of a text make up the text, with the delimiters between them. -/
theorem ofText_spec (hp : ofText t = some p) : p.Ok ∧
    ∃ slashes ∈ [[], sv "//"], p.schemeText ++ (slashes ++ (p.userinfoText ++ p.hostText)) = t := by
  by_cases hcolon : ch ':' ∈ t
  · obtain ⟨scheme, t, rfl, hscheme⟩ := List.eq_append_cons_of_mem hcolon
    rw [ofText_append hscheme] at hp
    obtain ⟨hok, ha, slashes, hmem, htext⟩ := readAuthority_spec (by simpa using hscheme) hp
    refine ⟨hok, slashes, hmem, ?_⟩
    rw [schemeText, ha, htext]
    simp
  · rw [ofText_of_not_mem hcolon] at hp
    have hnone : ch ':' ∉ (none : Option Bytes).getD [] := by simp
    split_ifs at hp with hnil hslashes hslash
    · obtain ⟨hok, ha, htext⟩ := readUserinfo_spec hnone hp
      obtain ⟨rest, rfl⟩ := hslashes
      refine ⟨hok, sv "//", by simp, ?_⟩
      rw [schemeText, ha, htext]
      rfl
    · obtain ⟨hok, ha, htext⟩ := readPath_spec hnone hp
      refine ⟨hok, [], by simp, ?_⟩
      rw [schemeText, ha, htext]
      rfl
    · obtain ⟨ha, hb, htext, hne, hok⟩ := readHost_iff.1 hp
      refine ⟨⟨hok.toPathOk, by simp [ha], by simp [hb], hok.host, hok.port, hok.port_ne, htext ▸ hne⟩, [],
        by simp, ?_⟩
      rw [schemeText, userinfoText, ha, hb, htext]
      rfl

/-! ## The characters of the parts -/

/-- The characters of the text from the path on are those of the parts, and the delimiters. -/
theorem mem_pathText_iff {c : Byte} (hc : c ∉ sv "?#") :
    c ∈ p.pathText ↔ c ∈ p.path ∨ c ∈ p.query.getD [] ∨ c ∈ p.fragment.getD [] := by
  have hquery : c ∈ p.queryText ↔ c ∈ p.query.getD [] := by
    have hne : c ≠ ch '?' := fun h => hc (h ▸ by decide)
    rw [queryText]
    rcases p.query with _ | y
    · rfl
    · rw [Option.elim_some, List.mem_cons, or_iff_right hne, Option.getD_some]
  have hfragment : c ∈ p.fragmentText ↔ c ∈ p.fragment.getD [] := by
    have hne : c ≠ ch '#' := fun h => hc (h ▸ by decide)
    rw [fragmentText]
    rcases p.fragment with _ | f
    · rfl
    · rw [Option.elim_some, List.mem_cons, or_iff_right hne, Option.getD_some]
  rw [pathText, List.mem_append, List.mem_append, hquery, hfragment]

/-- The characters of the text from the host on are those of the parts, and the delimiters. -/
theorem mem_hostText_iff {c : Byte} (hc : c ∉ sv ":?#") :
    c ∈ p.hostText ↔ c ∈ p.host ∨ c ∈ p.port.getD [] ∨ c ∈ p.path ∨ c ∈ p.query.getD [] ∨
      c ∈ p.fragment.getD [] := by
  have hport : c ∈ p.portText ↔ c ∈ p.port.getD [] := by
    have hne : c ≠ ch ':' := fun h => hc (h ▸ by decide)
    rw [portText]
    rcases p.port with _ | port
    · rfl
    · rw [Option.elim_some, List.mem_cons, or_iff_right hne, Option.getD_some]
  rw [hostText, List.mem_append, List.mem_append, hport,
    mem_pathText_iff fun h => hc (List.mem_cons_of_mem _ h)]

/-- The characters of the parts of a text are those of the text. -/
theorem not_mem_of_ofText {c : Byte} (hp : ofText t = some p) (ht : c ∉ t) :
    c ∉ p.scheme.getD [] ∧ c ∉ p.userinfo.getD [] ∧ c ∉ p.hostText := by
  obtain ⟨-, slashes, -, rfl⟩ := ofText_spec hp
  simp only [List.mem_append, not_or] at ht
  obtain ⟨hscheme, -, huserinfo, hhost⟩ := ht
  refine ⟨?_, ?_, hhost⟩
  · rw [schemeText] at hscheme
    rcases hr : p.scheme with _ | scheme
    · exact List.not_mem_nil
    · rw [hr] at hscheme
      exact fun h => hscheme (List.mem_append_left _ h)
  · rw [userinfoText] at huserinfo
    rcases hr : p.userinfo with _ | userinfo
    · exact List.not_mem_nil
    · rw [hr] at huserinfo
      exact fun h => huserinfo (List.mem_append_left _ h)

end Read

end UrlParts

end Cppnet
