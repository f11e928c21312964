import Cppnet.Url.PartsText
import Cppnet.Url.Query

/-!
# Rebuilding urls

What `build` writes of a url is parsed in its turn. The parts of what is written are the components of
the url (`UrlParts.ofUrl`), if none of them is taken for something else (`Url.Rebuildable`): a path is
taken for a host if it does not start with a slash, and then without a scheme, the text in front
of any `:` is taken for one; keys without values are not written at all.
-/

namespace Cppnet

open Lib

namespace Url

/-! ## What is written -/

/-- The text of the fragment. -/
def fragmentText (u : Url) : Bytes := if u.fragment = [] then [] else sv "#" ++ u.fragment

/-- The text of the port. -/
def portText (u : Url) : Bytes := if u.port = [] then [] else sv ":" ++ u.port

/-- The text of the userinfo. -/
def userinfoText (u : Url) : Bytes :=
  if u.userinfo.isEmpty then [] else u.userinfo.username ++ sv ":" ++ u.userinfo.password ++ sv "@"

/-- The text behind the path. -/
def queryText (u : Url) (order : List (Bytes × List Bytes)) : Bytes :=
  buildQuery (ch '?') (params order) ++ u.fragmentText

/-- The text behind the host. -/
def tailText (u : Url) (order : List (Bytes × List Bytes)) : Bytes :=
  u.portText ++ (u.path ++ u.queryText order)

/-- The text from the host on. -/
def hostText (u : Url) (order : List (Bytes × List Bytes)) : Bytes := u.host ++ u.tailText order

section Build

variable {u : Url}

theorem build_of_scheme (h : u.scheme ≠ []) (order : List (Bytes × List Bytes)) :
    u.build order = u.scheme ++ ch ':' :: (sv "//" ++ (u.userinfoText ++ u.hostText order)) := by
  simp only [build, if_neg h, hostText, tailText, queryText, portText, fragmentText, userinfoText,
    List.append_assoc]
  rfl

theorem build_of_no_scheme (h : u.scheme = []) (order : List (Bytes × List Bytes)) :
    u.build order = u.userinfoText ++ u.hostText order := by
  simp only [build, if_pos h, hostText, tailText, queryText, portText, fragmentText, userinfoText,
    List.append_assoc]
  rfl

theorem head_queryText {order : List (Bytes × List Bytes)} :
    ∀ c ∈ (u.queryText order).head?, c ∈ sv "?#" := by
  rw [queryText, fragmentText]
  rcases params order with _ | ⟨kv, ps⟩
  · split_ifs
    · simp [buildQuery]
    · exact fun c hc => Option.some.inj hc ▸ by decide
  · exact fun c hc => Option.some.inj hc ▸ by decide

/-- The characters of the text from the path on are those of the components, and the delimiters. -/
theorem mem_pathText_iff {c : Byte} (hc : c ∉ sv "?#&=") {order : List (Bytes × List Bytes)} :
    c ∈ u.path ++ u.queryText order ↔
      c ∈ u.path ∨ (∃ kv ∈ params order, c ∈ kv.1 ∨ c ∈ kv.2) ∨ c ∈ u.fragment := by
  have hhash : c ∉ sv "#" := fun h => by
    rw [List.mem_singleton.1 h] at hc
    exact hc (by decide)
  have hfragment : c ∈ u.fragmentText ↔ c ∈ u.fragment := by
    rw [fragmentText]
    split_ifs with h
    · rw [h]
    · rw [List.mem_append, or_iff_right hhash]
  have hsub : ∀ d ∈ sv "?&=", d ∈ sv "?#&=" := by decide
  have hquery : c ∈ buildQuery (ch '?') (params order) ↔ ∃ kv ∈ params order, c ∈ kv.1 ∨ c ∈ kv.2 :=
    mem_buildQuery_iff (fun h => hc (hsub c h)) (by decide)
  rw [queryText, List.mem_append, List.mem_append, hquery, hfragment]

/-- The characters of the text from the host on are those of the components, and the delimiters. -/
theorem mem_hostText_iff {c : Byte} (hc : c ∉ sv ":?#&=") {order : List (Bytes × List Bytes)} :
    c ∈ u.hostText order ↔ c ∈ u.host ∨ c ∈ u.port ∨ c ∈ u.path ∨
      (∃ kv ∈ params order, c ∈ kv.1 ∨ c ∈ kv.2) ∨ c ∈ u.fragment := by
  have hcolon : c ∉ sv ":" := fun h => by
    rw [List.mem_singleton.1 h] at hc
    exact hc (by decide)
  have hport : c ∈ u.portText ↔ c ∈ u.port := by
    rw [portText]
    split_ifs with h
    · rw [h]
    · rw [List.mem_append, or_iff_right hcolon]
  rw [hostText, tailText, List.mem_append, List.mem_append, hport,
    mem_pathText_iff fun h => hc (List.mem_cons_of_mem _ h)]

/-- The characters of what is written are those of the components, and the delimiters. -/
theorem mem_build_iff {c : Byte} (hc : c ∉ sv ":/?#&=@") {order : List (Bytes × List Bytes)} :
    c ∈ u.build order ↔ c ∈ u.scheme ∨ c ∈ u.userinfo.username ∨ c ∈ u.userinfo.password ∨
      c ∈ u.hostText order := by
  have hne : ∀ d ∈ sv ":/?#&=@", c ≠ d := fun d hd h => hc (h ▸ hd)
  have huserinfo : c ∈ u.userinfoText ↔ c ∈ u.userinfo.username ∨ c ∈ u.userinfo.password := by
    rw [userinfoText]
    split_ifs with h
    · simp only [UserInfo.isEmpty, decide_eq_true_eq] at h
      rw [h.1, h.2]
      simp
    · have hcolon : c ∉ sv ":" := fun h => hne _ (by decide) (List.mem_singleton.1 h)
      have hat : c ∉ sv "@" := fun h => hne _ (by decide) (List.mem_singleton.1 h)
      simp only [List.mem_append, hcolon, hat, or_false]
  by_cases hscheme : u.scheme = []
  · rw [build_of_no_scheme hscheme, hscheme, List.mem_append, huserinfo]
    simp [or_assoc]
  · have hcolon : c ≠ ch ':' := hne _ (by decide)
    have hslashes : c ∉ sv "//" := fun h => by
      rcases List.mem_pair.1 h with h | h <;> exact hne _ (by decide) h
    rw [build_of_scheme hscheme]
    simp only [List.mem_append, List.mem_cons, hcolon, hslashes, huserinfo, false_or, or_assoc]

theorem decoded_of_not_mem (h : ∀ s ∈ [u.scheme, u.userinfo.username, u.userinfo.password, u.host,
    u.port, u.path, u.fragment], ch '%' ∉ s) : u.decoded = u := by
  simp only [List.forall_mem_cons] at h
  obtain ⟨h₁, h₂, h₃, h₄, h₅, h₆, h₇, -⟩ := h
  simp only [decoded, percentDecode_of_not_mem h₁, percentDecode_of_not_mem h₂,
    percentDecode_of_not_mem h₃, percentDecode_of_not_mem h₄, percentDecode_of_not_mem h₅,
    percentDecode_of_not_mem h₆, percentDecode_of_not_mem h₇]

end Build

/-- No delimiters inside of the components. -/
structure Separated (u : Url) : Prop where
  scheme : ch ':' ∉ u.scheme
  username : ∀ c ∈ sv ":@", c ∉ u.userinfo.username
  password : ch '@' ∉ u.userinfo.password
  host : ∀ c ∈ sv ":/?#", c ∉ u.host
  port : ∀ c ∈ sv "/?#", c ∉ u.port
  path : ∀ c ∈ sv "?#", c ∉ u.path
  keys : ∀ e ∈ u.query.entries, ∀ c ∈ sv "&=#", c ∉ e.1
  vals : ∀ e ∈ u.query.entries, ∀ v ∈ e.2, ∀ c ∈ sv "&#", c ∉ v

/-- No component is lost, or taken for something else. -/
structure Rebuildable (u : Url) (order : List (Bytes × List Bytes)) : Prop where
  values : ∀ e ∈ u.query.entries, e.2 ≠ []
  path_head : ∀ c ∈ u.path.head?, c = ch '/'
  of_scheme : u.scheme ≠ [] → u.userinfo.isEmpty = false ∨ ch '@' ∉ u.hostText order
  of_no_scheme : u.scheme = [] →
    u.userinfo.isEmpty = true ∧ ch ':' ∉ u.hostText order ∧ ¬sv "//" <+: u.hostText order

end Url

/-! ## The parts of what is written -/

/-- The parts of what is written of a url. -/
def UrlParts.ofUrl (u : Url) (order : List (Bytes × List Bytes)) : UrlParts where
  scheme := if u.scheme = [] then none else some u.scheme
  userinfo :=
    if u.userinfo.isEmpty then none else some (u.userinfo.username ++ ch ':' :: u.userinfo.password)
  host := u.host
  port := if u.port = [] then none else some u.port
  path := u.path
  query :=
    if Url.params order = [] then none else some (Url.buildQuery (ch '?') (Url.params order)).tail
  fragment := if u.fragment = [] then none else some u.fragment

namespace UrlParts

variable {u : Url} {order : List (Bytes × List Bytes)}

theorem userinfoText_ofUrl : (ofUrl u order).userinfoText = u.userinfoText := by
  rw [userinfoText, Url.userinfoText, ofUrl]
  dsimp only
  split_ifs
  · rfl
  · simp [sv]

theorem pathText_ofUrl : (ofUrl u order).pathText = u.path ++ u.queryText order := by
  have hfragment : (ofUrl u order).fragmentText = u.fragmentText := by
    rw [fragmentText, Url.fragmentText, ofUrl]
    dsimp only
    split_ifs <;> rfl
  have hquery : (ofUrl u order).queryText = Url.buildQuery (ch '?') (Url.params order) := by
    rw [queryText, ofUrl]
    dsimp only
    split_ifs with hparams
    · rw [hparams]
      rfl
    · obtain ⟨kv, ps, hcons⟩ := List.exists_cons_of_ne_nil hparams
      rw [hcons]
      rfl
  rw [pathText, hquery, hfragment]
  rfl

theorem hostText_ofUrl : (ofUrl u order).hostText = u.hostText order := by
  have hport : (ofUrl u order).portText = u.portText := by
    rw [portText, Url.portText, ofUrl]
    dsimp only
    split_ifs <;> rfl
  rw [hostText, hport, pathText_ofUrl]
  rfl

section Separated

variable (hu : u.Separated) (horder : order.Perm u.query.entries)

include hu horder

theorem params_separated : ∀ kv ∈ Url.params order, (∀ c ∈ sv "&=#", c ∉ kv.1) ∧ ∀ c ∈ sv "&#", c ∉ kv.2 := by
  rintro ⟨key, val⟩ hkv
  obtain ⟨vals, he, hval⟩ := Url.mem_params_iff.1 hkv
  exact ⟨hu.keys _ (horder.mem_iff.1 he), hu.vals _ (horder.mem_iff.1 he) val hval⟩

theorem hostOk_ofUrl (hpath : ∀ c ∈ u.path.head?, c = ch '/') : (ofUrl u order).HostOk := by
  -- A `#` in the query would be one of a key or of a value.
  have hhash : ch '#' ∉ (Url.buildQuery (ch '?') (Url.params order)).tail := by
    intro hmem
    obtain ⟨kv, hkv, hc⟩ := (Url.mem_buildQuery_iff (by decide) (by decide)).1 (List.mem_of_mem_tail hmem)
    obtain ⟨hkey, hval⟩ := params_separated hu horder kv hkv
    exact hc.elim (hkey _ (by decide)) (hval _ (by decide))
  refine ⟨⟨hu.path, ?_, ?_, ?_⟩, hu.host, ?_, hpath, ?_⟩
  all_goals rw [ofUrl]; dsimp only
  · split_ifs
    · simp
    · exact hhash
  · split_ifs with h
    · simp
    · simpa using h
  · intro _
    split_ifs with h
    · simp
    · obtain ⟨kv, ps, hcons⟩ := List.exists_cons_of_ne_nil h
      rw [hcons, Url.buildQuery_cons]
      simp [Url.paramText]
  · split_ifs
    · simp
    · exact hu.port
  · intro _
    split_ifs with h
    · simp
    · simpa using h

/-- What is written is read as the components it is written of. -/
theorem ofText_build (hbuild : u.Rebuildable order) (hne : u.hostText order ≠ []) :
    ofText (u.build order) = some (ofUrl u order) := by
  have hok := hostOk_ofUrl hu horder hbuild.path_head
  by_cases hscheme : u.scheme = []
  · obtain ⟨huserinfo, hcolon, hslashes⟩ := hbuild.of_no_scheme hscheme
    have huserinfo' : (ofUrl u order).userinfo = none := if_pos huserinfo
    have hscheme' : (ofUrl u order).scheme = none := if_pos hscheme
    rw [Url.build_of_no_scheme hscheme, ← userinfoText_ofUrl, userinfoText, huserinfo', Option.elim_none,
      List.nil_append, ofText_of_not_mem hcolon, if_neg hne, if_neg hslashes]
    split_ifs with hslash
    · -- Neither a host nor a port is in front of the path.
      have hhost : u.host = [] := by
        rcases hh : u.host with _ | ⟨c, h⟩
        · rfl
        · rw [Url.hostText, hh] at hslash
          cases hslash
          exact absurd List.mem_cons_self (hh ▸ hu.host (ch '/') (by decide))
      have hport : (ofUrl u order).port = none := by
        refine if_pos (Classical.by_contradiction fun hp => hcolon ?_)
        rw [Url.hostText, Url.tailText, Url.portText, if_neg hp]
        simp [sv]
      rw [readPath_iff]
      refine ⟨hscheme', huserinfo', hhost, hport, ?_, hne, hok.toPathOk⟩
      rw [← hostText_ofUrl, hostText_of_path hhost hport]
    · rw [readHost_iff]
      exact ⟨hscheme', huserinfo', hostText_ofUrl, hne, hok⟩
  · -- With a scheme, there is an authority behind it.
    have hscheme' : (ofUrl u order).scheme = some u.scheme := if_neg hscheme
    rw [Url.build_of_scheme hscheme, ofText_append hu.scheme, readAuthority, if_neg (by simp [sv]),
      if_pos (List.prefix_append _ _), readUserinfo_iff]
    refine ⟨hscheme', ?_, hostText_ofUrl ▸ hne, hok, ?_, ?_⟩
    · rw [userinfoText_ofUrl, hostText_ofUrl]
      rfl
    · rw [ofUrl]
      dsimp only
      split_ifs
      · simp
      · rw [Option.getD_some, List.mem_append, List.mem_cons, not_or, not_or]
        exact ⟨hu.username _ (by decide), by decide, hu.password⟩
    · intro hnone
      rw [hostText_ofUrl]
      refine (hbuild.of_scheme hscheme).resolve_left fun hempty => ?_
      rw [ofUrl] at hnone
      simp [hempty] at hnone

/-- The components of what is written are those it is written of. -/
theorem url_ofUrl (hpercent : ch '%' ∉ u.build order) :
    (ofUrl u order).url = { u with query := .addAll .empty (Url.params order) } := by
  -- The parameters are read back one by one.
  have hquery : Url.queryValues ((ofUrl u order).query.getD []) = .addAll .empty (Url.params order) := by
    rw [ofUrl]
    dsimp only
    split_ifs with hnil
    · rw [hnil]
      rfl
    · obtain ⟨kv, ps, hcons⟩ := List.exists_cons_of_ne_nil hnil
      have hparams := params_separated hu horder
      have hpercent' : ∀ kv ∈ Url.params order, ch '%' ∉ kv.1 ∧ ch '%' ∉ kv.2 := by
        intro kv hkv
        rw [Url.mem_build_iff (by decide), Url.mem_hostText_iff (by decide)] at hpercent
        exact ⟨fun h => hpercent (.inr (.inr (.inr (.inr (.inr (.inr (.inl ⟨kv, hkv, .inl h⟩))))))),
          fun h => hpercent (.inr (.inr (.inr (.inr (.inr (.inr (.inl ⟨kv, hkv, .inr h⟩)))))))⟩
      rw [hcons] at hparams hpercent' ⊢
      rw [Url.buildQuery_cons, Option.getD_some, List.tail_cons]
      refine Url.queryValues_buildQuery (fun kv' hkv' => ?_) fun kv' hkv' => ?_
      · rw [Url.paramText, List.mem_append, List.mem_cons, not_or, not_or]
        exact ⟨(hparams kv' hkv').1 _ (by decide), by decide, (hparams kv' hkv').2 _ (by decide)⟩
      · exact Url.paramOf_paramText ((hparams kv' hkv').1 _ (by decide)) (hpercent' kv' hkv').1
          (hpercent' kv' hkv').2
  have huserinfo : Url.userinfoOf ((ofUrl u order).userinfo.getD []) = u.userinfo := by
    rw [ofUrl]
    dsimp only
    split_ifs with hempty
    · simp only [UserInfo.isEmpty, decide_eq_true_eq] at hempty
      exact (congrArg₂ UserInfo.mk hempty.1 hempty.2).symm
    · rw [Option.getD_some, Url.userinfoOf, show sv ":" = [ch ':'] from rfl,
        cut_singleton_append (hu.username _ (by decide))]
      rfl
  have hgetD : ∀ s : Bytes, (if s = [] then none else some s).getD [] = s := fun s => by
    split_ifs with hs
    · exact hs.symm
    · rfl
  rw [url, hquery, huserinfo]
  simp only [ofUrl, hgetD]

/-- Parsing what was written gives back the url: for every order in which the query was iterated, the
    same components, and a query with the same entries. -/
theorem parse_build_of_rebuildable (hbuild : u.Rebuildable order) (hne : u.hostText order ≠ [])
    (hpercent : ch '%' ∉ u.build order) :
    ∃ query : QueryValues, query.entries = order ∧
      Url.parse (u.build order) = some (.ok { u with query }) := by
  refine ⟨.addAll .empty (Url.params order), ?_, ?_⟩
  · have hnodup : (order.map fun e => id e.1).Nodup :=
      ((horder.map fun e => id e.1).nodup_iff).2 u.query.nodup
    exact KeyedMap.entries_addAll_flatMap hnodup
      (fun e he => hbuild.values e (horder.mem_iff.1 he)) (by simp)
  · rw [Url.parse_eq_ok_iff (.of_not_mem hpercent)]
    refine ⟨_, ofText_build hu horder hbuild hne, ?_⟩
    rw [url_ofUrl hu horder hpercent]
    refine Url.decoded_of_not_mem ?_
    rw [Url.mem_build_iff (by decide), Url.mem_hostText_iff (by decide)] at hpercent
    simp only [not_or] at hpercent
    obtain ⟨h₁, h₂, h₃, h₄, h₅, h₆, -, h₇⟩ := hpercent
    simp only [List.forall_mem_cons]
    exact ⟨h₁, h₂, h₃, h₄, h₅, h₆, h₇, by simp⟩

end Separated

end UrlParts

end Cppnet
