import Cppnet.Url.Rebuild
import Mathlib.Tactic.MkIffOfInductiveProp

/-!
# Rebuilding parsed urls

Parsing what `build` writes of a parsed url gives the same url only for some texts
(`UrlParts.Rebuildable`): the others have a part that is not written, or is taken for something else
(`rebuild_iff`).

That these are all is a matter of lengths. Nothing that is written of a url is longer than what it can be
read from (`length_hostText_le`), so if what was written reads as the same url, then nothing of it was
taken for a delimiter.
-/

namespace Cppnet

open Lib

namespace UrlParts

variable {p : UrlParts} {t : Bytes}

/-! ## The components of the parts of a text -/

theorem not_mem_userinfoOf {c : Byte} (hc : c ∉ t) :
    c ∉ (Url.userinfoOf t).username ∧ c ∉ (Url.userinfoOf t).password := by
  obtain ⟨htext, -, -⟩ := cut_spec (sv ":") t
  rw [← htext, List.mem_append, not_or] at hc
  exact ⟨hc.1, fun h => hc.2 (List.mem_of_mem_tail h)⟩

/-- A password is behind a `:`. -/
theorem length_password_lt (h : (Url.userinfoOf t).password ≠ []) :
    (Url.userinfoOf t).password.length < t.length := by
  obtain ⟨htext, -, -⟩ := cut_spec (sv ":") t
  have hlen := congrArg List.length htext
  rw [List.length_append] at hlen
  rw [Url.userinfoOf] at h ⊢
  rcases hr : (cut (sv ":") t).2 with _ | ⟨c, r⟩
  · rw [hr] at h
    exact absurd rfl h
  · rw [hr, List.length_cons] at hlen
    change r.length < t.length
    omega

/-- There is nothing to decode. -/
theorem decoded_url (hp : ofText t = some p) (ht : ch '%' ∉ t) : p.url.decoded = p.url := by
  obtain ⟨hscheme, huserinfo, hhost⟩ := not_mem_of_ofText hp ht
  obtain ⟨husername, hpassword⟩ := not_mem_userinfoOf huserinfo
  rw [mem_hostText_iff (by decide)] at hhost
  simp only [not_or] at hhost
  obtain ⟨hhost, hport, hpath, -, hfragment⟩ := hhost
  refine Url.decoded_of_not_mem ?_
  simp only [List.forall_mem_cons]
  exact ⟨hscheme, husername, hpassword, hhost, hport, hpath, hfragment, by simp⟩

/-- There are no delimiters inside of the components of parts. -/
theorem separated_url (hp : p.Ok) (hquery : ch '%' ∉ p.query.getD []) : p.url.Separated where
  scheme := hp.scheme
  username := by
    have h := not_mem_userinfoOf hp.userinfo
    obtain ⟨-, hcolon, -⟩ := cut_spec (sv ":") (p.userinfo.getD [])
    intro c hc
    rcases List.mem_pair.1 (show c ∈ [ch ':', ch '@'] from hc) with rfl | rfl
    · exact hcolon _ (by decide)
    · exact h.1
  password := (not_mem_userinfoOf hp.userinfo).2
  host := hp.host
  port := hp.port
  path := hp.path
  keys := by
    intro e he c hc
    obtain ⟨part, hpart, hkey⟩ := Url.mem_keys_queryValues.1 (List.mem_map.2 ⟨e, he, rfl⟩)
    obtain ⟨hamp, hsub⟩ := Url.not_mem_of_mem_queryParts hpart
    obtain ⟨hnot, hmem⟩ := Url.keyOf_spec (Url.not_percent_of_mem_queryParts hquery hpart)
    rw [← show Url.keyOf part = e.1 from hkey]
    rcases List.mem_cons.1 (show c ∈ ch '&' :: sv "=#" from hc) with rfl | hc
    · exact fun h => hamp (hmem _ h)
    · rcases List.mem_pair.1 (show c ∈ [ch '=', ch '#'] from hc) with rfl | rfl
      · exact hnot
      · exact fun h => hp.query (hsub _ (hmem _ h))
  vals := by
    rintro ⟨key, vals⟩ he v hv c hc
    have hkv := (Url.params_queryValues _).mem_iff.1 (Url.mem_params_iff.2 ⟨vals, he, hv⟩)
    obtain ⟨part, hpart, hparam⟩ := List.mem_filterMap.1 hkv
    obtain ⟨hamp, hsub⟩ := Url.not_mem_of_mem_queryParts hpart
    have hmem := Url.mem_of_paramOf (Url.not_percent_of_mem_queryParts hquery hpart) hparam
    rcases List.mem_pair.1 (show c ∈ [ch '&', ch '#'] from hc) with rfl | rfl
    · exact fun h => hamp (hmem _ h)
    · exact fun h => hp.query (hsub _ (hmem _ h))

/-! ## Lengths -/

section Length

variable {u : Url} {order : List (Bytes × List Bytes)}

/-- A part is as long as the component made of it, with the delimiter in front. -/
theorem length_component_le (c : Byte) (part : Option Bytes) :
    (if part.getD [] = [] then [] else [c] ++ part.getD []).length ≤
      (part.elim [] (c :: ·)).length := by
  rcases part with _ | s
  · exact le_rfl
  · rw [Option.getD_some, Option.elim_some]
    split_ifs
    · exact Nat.zero_le _
    · exact le_rfl

/-- What is written from the host on is not longer than what it can be read from, and shorter if there
    is a parameter without a value. -/
theorem length_hostText_le (hp : p.url.Equal u) (horder : order.Perm u.query.entries) :
    (u.hostText order).length + Url.valueless (p.query.getD []) ≤ p.hostText.length := by
  have hport : u.portText.length ≤ p.portText.length := by
    rw [Url.portText, ← hp.port]
    exact length_component_le (ch ':') p.port
  have hfragment : u.fragmentText.length ≤ p.fragmentText.length := by
    rw [Url.fragmentText, ← hp.fragment]
    exact length_component_le (ch '#') p.fragment
  have hquery : (Url.buildQuery (ch '?') (Url.params order)).length + Url.valueless (p.query.getD []) ≤
      p.queryText.length := by
    have horder' : order.Perm (Url.queryValues (p.query.getD [])).entries := horder.trans hp.query.symm
    rw [Url.length_buildQuery, queryText]
    rcases hr : p.query with _ | y
    · rw [hr] at horder'
      rw [List.perm_nil.1 horder']
      exact le_rfl
    · rw [hr] at horder'
      exact Url.length_params_le horder'
  have hhost : u.host.length = p.host.length := by rw [← hp.host]; rfl
  have hpath : u.path.length = p.path.length := by rw [← hp.path]; rfl
  simp only [Url.hostText, Url.tailText, Url.queryText, hostText, pathText, List.length_append]
  omega

/-- If nothing else is written than what was read, then no key is lost. -/
theorem forall_ne_nil_of_length (hp : p.url.Equal u) (horder : order.Perm u.query.entries)
    (hlen : p.hostText.length ≤ (u.hostText order).length) : ∀ e ∈ u.query.entries, e.2 ≠ [] := by
  have hle := length_hostText_le hp horder
  intro e he
  exact Url.forall_ne_nil_of_valueless (by omega) e (hp.query.mem_iff.2 he)

end Length

/-! ## Reading what was written -/

section Necessary

variable {u : Url} {order : List (Bytes × List Bytes)}

variable (hu : u.Separated) (horder : order.Perm u.query.entries)
  (hp : ofText (u.build order) = some p) (hequal : p.url.Equal u)

include hu horder hp hequal

theorem rebuildable_of_scheme (hscheme : u.scheme ≠ []) : u.Rebuildable order := by
  rw [Url.build_of_scheme hscheme, ofText_append hu.scheme, readAuthority, if_neg (by simp [sv]),
    if_pos (List.prefix_append _ _), readUserinfo_iff] at hp
  obtain ⟨-, htext, -, hok, hat, hnone⟩ := hp
  replace htext : p.userinfoText ++ p.hostText = u.userinfoText ++ u.hostText order := htext
  have hle := length_hostText_le hequal horder
  have key : p.hostText = u.hostText order ∧
      (u.userinfo.isEmpty = false ∨ ch '@' ∉ u.hostText order) := by
    rw [Url.userinfoText] at htext
    split_ifs at htext with hempty
    · -- An `@` behind nothing would have taken something off the host.
      have hlen := congrArg List.length htext
      rw [List.nil_append, List.length_append] at hlen
      have huserinfo : p.userinfoText = [] := List.eq_nil_of_length_eq_zero (by omega)
      have hhost : p.hostText = u.hostText order := by rwa [huserinfo] at htext
      refine ⟨hhost, .inr (hhost ▸ hnone ?_)⟩
      rw [userinfoText] at huserinfo
      rcases hr : p.userinfo with _ | userinfo
      · rfl
      · rw [hr] at huserinfo
        simp at huserinfo
    · -- The userinfo goes up to the `@` behind it.
      refine ⟨?_, .inl (by simpa using hempty)⟩
      have hnot : ch '@' ∉ u.userinfo.username ++ sv ":" ++ u.userinfo.password := by
        rw [List.mem_append, List.mem_append, not_or, not_or]
        exact ⟨⟨hu.username _ (by decide), by decide⟩, hu.password⟩
      rw [userinfoText] at htext
      rcases hr : p.userinfo with _ | userinfo
      · rw [hr, Option.elim_none, List.nil_append] at htext
        refine absurd ?_ (hnone hr)
        rw [htext]
        simp [sv]
      · rw [hr, Option.getD_some] at hat
        rw [hr, Option.elim_some, List.append_assoc, List.append_assoc _ (sv "@")] at htext
        have hcut := congrArg (cut [ch '@']) htext
        rw [List.singleton_append, cut_singleton_append hat, show sv "@" = [ch '@'] from rfl,
          List.singleton_append, cut_singleton_append hnot] at hcut
        exact (List.cons.inj (congrArg Prod.snd hcut)).2
  obtain ⟨hhost, hcases⟩ := key
  exact ⟨forall_ne_nil_of_length hequal horder (by rw [hhost]), hequal.path ▸ hok.path_head,
    fun _ => hcases, fun h => absurd h hscheme⟩

/-- Without a scheme, nothing in front of a `:` is taken for one. -/
theorem not_mem_of_no_scheme (hscheme : u.scheme = []) : ch ':' ∉ u.build order := by
  intro hcolon
  have hle := length_hostText_le hequal horder
  rw [Url.build_of_no_scheme hscheme] at hp hcolon
  obtain ⟨a, rest, htext, ha⟩ := List.eq_append_cons_of_mem hcolon
  rw [htext, ofText_append ha] at hp
  obtain ⟨-, ha', slashes, -, hrest⟩ := readAuthority_spec (by simpa using ha) hp
  -- The scheme that was read is empty, so the text starts with the `:`.
  obtain rfl : a = [] := by
    rw [← hscheme, ← hequal.scheme, url, ha']
    rfl
  have hlen := congrArg List.length hrest
  have hlen' := congrArg List.length htext
  simp only [List.length_append, List.length_cons, List.nil_append] at hlen hlen'
  rw [Url.userinfoText] at htext hlen'
  split_ifs at htext hlen' with hempty
  · rw [List.length_nil] at hlen'
    omega
  · -- There is a password only, and it was read with the `:` and the `@` around it.
    have husername : u.userinfo.username = [] := by
      rcases hr : u.userinfo.username with _ | ⟨c, r⟩
      · rfl
      · rw [hr] at htext
        have hc : c = ch ':' := (List.cons.inj htext).1
        exact absurd (hc ▸ List.mem_cons_self) (hr ▸ hu.username (ch ':') (by decide))
    have hpassword : u.userinfo.password ≠ [] := by
      intro h
      simp [UserInfo.isEmpty, husername, h] at hempty
    rw [← hequal.userinfo] at hpassword
    have huserinfo : u.userinfo.password.length + 2 ≤ p.userinfoText.length := by
      rw [← hequal.userinfo, userinfoText]
      rcases hr : p.userinfo with _ | userinfo
      · rw [url, hr] at hpassword
        exact absurd rfl hpassword
      · rw [url, hr] at hpassword ⊢
        have hlt := length_password_lt hpassword
        rw [Option.elim_some, List.length_append, List.length_singleton]
        exact Nat.succ_le_succ hlt
    have htwo : (sv ":").length = 1 ∧ (sv "@").length = 1 := ⟨rfl, rfl⟩
    rw [husername] at hlen'
    simp only [List.length_append, List.length_nil] at hlen'
    omega

theorem rebuildable_of_no_scheme (hscheme : u.scheme = []) : u.Rebuildable order := by
  have hcolon := not_mem_of_no_scheme hu horder hp hequal hscheme
  have hle := length_hostText_le hequal horder
  have hbuild := Url.build_of_no_scheme hscheme order
  rw [Url.userinfoText] at hbuild
  split_ifs at hbuild with hempty
  · rw [List.nil_append] at hbuild
    rw [hbuild] at hcolon hp
    rw [ofText_of_not_mem hcolon] at hp
    have key : p.hostText = u.hostText order ∧ (∀ c ∈ p.path.head?, c = ch '/') ∧
        ¬sv "//" <+: u.hostText order := by
      split_ifs at hp with hnil hslashes hslash
      · -- The slashes would have been taken off the path.
        obtain ⟨-, htext, -⟩ := readUserinfo_iff.1 hp
        obtain ⟨rest, hrest⟩ := hslashes
        rw [← hrest] at htext hle
        have hlen := congrArg List.length htext
        simp only [List.length_append, List.length_drop] at hlen hle
        have htwo : (sv "//").length = 2 := rfl
        omega
      · obtain ⟨-, -, hhost, hport, htext, -, hok⟩ := readPath_iff.1 hp
        refine ⟨(hostText_of_path hhost hport).trans htext, fun c hc => ?_, hslashes⟩
        rw [← htext, pathText, List.head?_append, Option.mem_def.1 hc, Option.some_or] at hslash
        exact Option.some.inj hslash
      · obtain ⟨-, -, htext, -, hok⟩ := readHost_iff.1 hp
        exact ⟨htext, hok.path_head, hslashes⟩
    obtain ⟨hhost, hhead, hslashes⟩ := key
    exact ⟨forall_ne_nil_of_length hequal horder (by rw [hhost]), hequal.path ▸ hhead,
      fun h => absurd hscheme h, fun _ => ⟨hempty, hcolon, hslashes⟩⟩
  · rw [hbuild] at hcolon
    simp [sv] at hcolon

/-- If what is written of a url reads as the url, then no component was lost, or taken for something
    else. -/
theorem rebuildable_of_ofText_build : u.Rebuildable order := by
  by_cases hscheme : u.scheme = []
  · exact rebuildable_of_no_scheme hu horder hp hequal hscheme
  · exact rebuildable_of_scheme hu horder hp hequal hscheme

end Necessary

/-! ## The texts that can be rebuilt -/

/-- Every part is written, and none is taken for something else. -/
@[mk_iff] structure Rebuildable (p : UrlParts) : Prop where
  values : Url.KeysHaveValues (p.query.getD [])
  path_head : ∀ c ∈ p.path.head?, c = ch '/'
  of_scheme : p.scheme.getD [] ≠ [] → p.userinfo.getD [] ∉ [[], sv ":"] ∨ ch '@' ∉ p.hostText
  of_no_scheme : p.scheme.getD [] = [] →
    p.userinfo.getD [] ∈ [[], sv ":"] ∧ p.port.getD [] = [] ∧ ch ':' ∉ p.pathText ∧
      ¬(p.host = [] ∧ sv "//" <+: p.path)

instance (p : UrlParts) : Decidable p.Rebuildable := decidable_of_iff _ (rebuildable_iff p).symm

theorem isEmpty_userinfoOf : (Url.userinfoOf t).isEmpty = true ↔ t ∈ [[], sv ":"] := by
  constructor
  · intro h
    obtain ⟨htext, -, hhead⟩ := cut_spec (sv ":") t
    obtain ⟨husername, hpassword⟩ : (cut (sv ":") t).1 = [] ∧ (cut (sv ":") t).2.tail = [] :=
      of_decide_eq_true h
    rw [husername, List.nil_append] at htext
    rcases hr : (cut (sv ":") t).2 with _ | ⟨c, r⟩
    · rw [hr] at htext
      simp [← htext]
    · rw [hr] at htext hhead hpassword
      obtain rfl : r = [] := hpassword
      rw [← htext, List.mem_singleton.1 (hhead c rfl)]
      decide
  · intro h
    rcases List.mem_pair.1 h with rfl | rfl
    · rfl
    · rfl

/-- Two slashes are in front of the path only if they are at its start. -/
theorem slashes_isPrefix_iff {host path rest : Bytes} (hhost : ch '/' ∉ host)
    (hrest : ∀ c ∈ rest.head?, c ∈ sv "?#") :
    sv "//" <+: host ++ (path ++ rest) ↔ host = [] ∧ sv "//" <+: path := by
  have hslash : ∀ t, rest ≠ ch '/' :: t := by
    rintro t rfl
    exact absurd (hrest _ rfl) (by decide)
  constructor
  · rintro ⟨t, ht⟩
    rcases host with _ | ⟨c, host⟩
    · refine ⟨rfl, ?_⟩
      rcases path with _ | ⟨x, _ | ⟨y, path⟩⟩
      · exact absurd ht.symm (hslash _)
      · exact absurd (List.cons.inj ht).2.symm (hslash _)
      · obtain ⟨hx, ht⟩ := List.cons.inj ht
        obtain ⟨hy, -⟩ := List.cons.inj ht
        exact ⟨path, by rw [← hx, ← hy]; rfl⟩
    · have hc : ch '/' = c := (List.cons.inj ht).1
      exact absurd (hc ▸ List.mem_cons_self) hhost
  · rintro ⟨rfl, h⟩
    exact h.trans (List.prefix_append _ _)

theorem eq_none_of_getD {part : Option Bytes} (h : part.getD [] = []) (hne : part ≠ some []) :
    part = none := by
  rcases part with _ | s
  · rfl
  · exact absurd (congrArg some h) hne

section Written

variable {order : List (Bytes × List Bytes)} (hquery : ch '%' ∉ p.query.getD [])
  (horder : order.Perm p.url.query.entries)

include hquery horder

theorem mem_pathText_url_iff (h : Url.KeysHaveValues (p.query.getD [])) {c : Byte} (hc : c ∉ sv "?#&=") :
    c ∈ p.url.path ++ p.url.queryText order ↔ c ∈ p.pathText := by
  have hsub : ∀ d ∈ sv "&=", d ∈ sv "?#&=" := by decide
  have hsub' : ∀ d ∈ sv "?#", d ∈ sv "?#&=" := by decide
  rw [Url.mem_pathText_iff hc, Url.exists_mem_params_iff hquery h horder fun h => hc (hsub c h),
    mem_pathText_iff fun h => hc (hsub' c h)]
  rfl

theorem mem_hostText_url_iff (h : Url.KeysHaveValues (p.query.getD [])) {c : Byte}
    (hc : c ∉ sv ":?#&=") : c ∈ p.url.hostText order ↔ c ∈ p.hostText := by
  have hsub : ∀ d ∈ sv "&=", d ∈ sv ":?#&=" := by decide
  have hsub' : ∀ d ∈ sv ":?#", d ∈ sv ":?#&=" := by decide
  rw [Url.mem_hostText_iff hc, Url.exists_mem_params_iff hquery h horder fun h => hc (hsub c h),
    mem_hostText_iff fun h => hc (hsub' c h)]
  rfl

/-- Something is written from the host on. -/
theorem hostText_url_ne_nil (hp : p.Ok) (h : Url.KeysHaveValues (p.query.getD [])) :
    p.url.hostText order ≠ [] := by
  intro hnil
  simp only [Url.hostText, Url.tailText, Url.queryText, List.append_eq_nil_iff] at hnil
  obtain ⟨hhost, hport, hpath, hparams, hfragment⟩ := hnil
  -- Only the last of the parts could be there and be empty, but it is not.
  have hfragment' : p.fragment = none := by
    refine eq_none_of_getD (Classical.by_contradiction fun hne => ?_) hp.fragment_ne
    rw [Url.fragmentText, if_neg (show p.url.fragment ≠ [] from hne)] at hfragment
    cases hfragment
  have hquery' : p.query = none := by
    refine eq_none_of_getD (Classical.by_contradiction fun hne => ?_) (hp.query_ne hfragment')
    obtain ⟨kv, ps, hcons⟩ := List.exists_cons_of_ne_nil (Url.params_ne_nil hquery h hne horder)
    rw [hcons, Url.buildQuery_cons] at hparams
    cases hparams
  have hpathText : p.pathText = [] := by
    rw [pathText, queryText, fragmentText, hquery', hfragment', show p.path = [] from hpath]
    rfl
  have hport' : p.port = none := by
    refine eq_none_of_getD (Classical.by_contradiction fun hne => ?_) (hp.port_ne hpathText)
    rw [Url.portText, if_neg (show p.url.port ≠ [] from hne)] at hport
    cases hport
  refine hp.hostText_ne ?_
  rw [hostText, portText, hport', hpathText, show p.host = [] from hhost]
  rfl

/-- Without a scheme, what could be taken for one, or for an authority. -/
theorem not_mem_hostText_url_iff (hp : p.Ok) (h : Url.KeysHaveValues (p.query.getD [])) :
    (ch ':' ∉ p.url.hostText order ∧ ¬sv "//" <+: p.url.hostText order) ↔
      p.port.getD [] = [] ∧ ch ':' ∉ p.pathText ∧ ¬(p.host = [] ∧ sv "//" <+: p.path) := by
  by_cases hport : p.port.getD [] = []
  · have hportText : p.url.portText = [] := if_pos hport
    have hhost : ch ':' ∉ p.url.host := hp.host _ (by decide)
    rw [Url.hostText, Url.tailText, hportText, List.nil_append, List.mem_append, or_iff_right hhost,
      mem_pathText_url_iff hquery horder h (by decide), and_iff_right hport]
    refine and_congr_right' (not_congr ?_)
    exact slashes_isPrefix_iff (hp.host _ (by decide)) Url.head_queryText
  · refine iff_of_false (fun h => h.1 ?_) fun h => hport h.1
    have hportText : p.url.portText = sv ":" ++ p.port.getD [] := if_neg hport
    rw [Url.hostText, Url.tailText, hportText]
    simp [sv]

/-- What the parts have to be for the components made of them to be rebuilt. -/
theorem rebuildable_url_iff (hp : p.Ok) : p.url.Rebuildable order ↔ p.Rebuildable := by
  have hvalues := Url.forall_ne_nil_iff_keysHaveValues hquery
  have huserinfo : p.url.userinfo.isEmpty = true ↔ p.userinfo.getD [] ∈ [[], sv ":"] :=
    isEmpty_userinfoOf
  constructor
  · intro h
    have hkeys := hvalues.1 h.values
    refine ⟨hkeys, h.path_head, fun hscheme => ?_, fun hscheme => ?_⟩
    · rw [← huserinfo, Bool.not_eq_true, ← mem_hostText_url_iff hquery horder hkeys (by decide)]
      exact h.of_scheme hscheme
    · obtain ⟨hempty, hrest⟩ := h.of_no_scheme hscheme
      exact ⟨huserinfo.1 hempty, (not_mem_hostText_url_iff hquery horder hp hkeys).1 hrest⟩
  · intro h
    refine ⟨hvalues.2 h.values, h.path_head, fun hscheme => ?_, fun hscheme => ?_⟩
    · rw [mem_hostText_url_iff hquery horder h.values (by decide), ← Bool.not_eq_true, huserinfo]
      exact h.of_scheme hscheme
    · obtain ⟨hempty, hrest⟩ := h.of_no_scheme hscheme
      exact ⟨huserinfo.2 hempty, (not_mem_hostText_url_iff hquery horder hp h.values).2 hrest⟩

end Written

/-- Nothing that was not read is written. -/
theorem not_percent_of_mem_build {order : List (Bytes × List Bytes)} (hp : ofText t = some p)
    (ht : ch '%' ∉ t) (horder : order.Perm p.url.query.entries) : ch '%' ∉ p.url.build order := by
  obtain ⟨hscheme, huserinfo, hhost⟩ := not_mem_of_ofText hp ht
  obtain ⟨husername, hpassword⟩ := not_mem_userinfoOf huserinfo
  rw [mem_hostText_iff (by decide)] at hhost
  simp only [not_or] at hhost
  obtain ⟨hhost, hport, hpath, hquery, hfragment⟩ := hhost
  rw [Url.mem_build_iff (by decide), Url.mem_hostText_iff (by decide)]
  rintro (h | h | h | h | h | h | ⟨kv, hkv, h⟩ | h)
  · exact hscheme h
  · exact husername h
  · exact hpassword h
  · exact hhost h
  · exact hport h
  · exact hpath h
  · exact hquery (Url.mem_of_mem_params hquery horder hkv h)
  · exact hfragment h

end UrlParts

namespace Url

/-- Parsing what is written of a parsed url gives the same url if and only if every part of its text is
    written, and none is taken for something else: whatever the order in which the query is iterated. -/
theorem rebuild_iff (s : Bytes) (hs : ch '%' ∉ s) (u : Url) (hu : Url.parse s = some (.ok u))
    (order : List (Bytes × List Bytes)) (horder : order.Perm u.query.entries) :
    (∃ v, Url.parse (u.build order) = some (.ok v) ∧ v.Equal u) ↔
      ∃ p, UrlParts.ofText s = some p ∧ p.Rebuildable := by
  -- Nothing is to be decoded in a text without `%`, so the url is made of the parts as they are.
  obtain ⟨p, hp, hdecoded⟩ := (Url.parse_eq_ok_iff (.of_not_mem hs)).1 hu
  rw [UrlParts.decoded_url hp hs] at hdecoded
  subst hdecoded
  obtain ⟨hok, -⟩ := UrlParts.ofText_spec hp
  have hquery : ch '%' ∉ p.query.getD [] := by
    obtain ⟨-, -, hhost⟩ := UrlParts.not_mem_of_ofText hp hs
    rw [UrlParts.mem_hostText_iff (by decide)] at hhost
    exact fun h => hhost (.inr (.inr (.inr (.inl h))))
  have hseparated := UrlParts.separated_url hok hquery
  have hbuild := UrlParts.not_percent_of_mem_build hp hs horder
  have hiff := UrlParts.rebuildable_url_iff hquery horder hok
  constructor
  · rintro ⟨v, hv, hequal⟩
    obtain ⟨p', hp', hdecoded⟩ := (Url.parse_eq_ok_iff (.of_not_mem hbuild)).1 hv
    rw [UrlParts.decoded_url hp' hbuild] at hdecoded
    subst hdecoded
    exact ⟨p, hp, hiff.1 (UrlParts.rebuildable_of_ofText_build hseparated horder hp' hequal)⟩
  · rintro ⟨p', hp', hrebuildable⟩
    obtain rfl : p = p' := Option.some.inj (hp.symm.trans hp')
    have hne := UrlParts.hostText_url_ne_nil hquery horder hok hrebuildable.values
    obtain ⟨query, hentries, hparse⟩ := UrlParts.parse_build_of_rebuildable hseparated horder
      (hiff.2 hrebuildable) hne hbuild
    refine ⟨_, hparse, rfl, rfl, rfl, rfl, rfl, ?_, rfl⟩
    change query.entries.Perm p.url.query.entries
    rwa [hentries]

/-- A url with all parts, one key of the query without and with a value. -/
theorem rebuild_iff_full :
    let s := sv "http://u:p@h:80/a?k&l=1&k=#f"
    let u : Url :=
      { scheme := sv "http", userinfo := ⟨sv "u", sv "p"⟩, host := sv "h", port := sv "80",
        path := sv "/a", query := ⟨[(sv "k", [[]]), (sv "l", [sv "1"])], by decide⟩, fragment := sv "f" }
    let order := [(sv "l", [sv "1"]), (sv "k", [[]])]
    Url.parse s = some (.ok u) ∧ u.build order = sv "http://u:p@h:80/a?l=1&k=#f" ∧
      ∃ v, Url.parse (u.build order) = some (.ok v) ∧ v.Equal u := by
  refine ⟨by decide +kernel, by decide, ?_⟩
  refine (rebuild_iff (sv "http://u:p@h:80/a?k&l=1&k=#f") (by decide) _ (by decide +kernel) _ (by decide)).2
    ⟨{ scheme := some (sv "http"), userinfo := some (sv "u:p"), host := sv "h", port := some (sv "80"),
       path := sv "/a", query := some (sv "k&l=1&k="), fragment := some (sv "f") }, ?_, ?_⟩
  · decide +kernel
  · decide +kernel

/-- A key without a value is lost. -/
theorem rebuild_valueless :
    let s := sv "/p?k"
    let u : Url := { path := sv "/p", query := ⟨[(sv "k", [])], by decide⟩ }
    ch '%' ∉ s ∧ Url.parse s = some (.ok u) ∧ u.build u.query.entries = sv "/p" ∧
      ¬∃ v, Url.parse (u.build u.query.entries) = some (.ok v) ∧ v.Equal u := by
  refine ⟨by decide, by decide, by decide, ?_⟩
  rintro ⟨v, hv, hequal⟩
  have hparse : Url.parse (sv "/p") = some (.ok { path := sv "/p" }) := by decide
  obtain rfl : { path := sv "/p" } = v := Except.ok.inj (Option.some.inj (hparse.symm.trans hv))
  exact absurd hequal.query.length_eq (by decide)

end Url

end Cppnet
