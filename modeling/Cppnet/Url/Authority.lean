import Cppnet.Url.RoundTrip
import Cppnet.Url.Triples

/-!
# The authority of a url with a query

`parse_userinfo` looks for an `@` in all that is behind the two slashes, before the later states have cut it
into its parts. So the host of a url is the one that stands there if and only if there is no `@` in its query
(`parse_host_iff`). The client of `http` connects to the host that is found.
-/

namespace Cppnet.Url

open Lib

section Authority

variable {s h p q : Bytes}

/-- What stands behind the two slashes. -/
def authorityText (h p q : Bytes) : Bytes := h ++ p ++ sv "?" ++ q

theorem escaped_authority (hs : Unreserved s) (hh : Unreserved h) (hp : ch '%' ∉ p) (hq : Escaped q) :
    Escaped (s ++ sv "://" ++ authorityText h p q) := by
  have hfront : ch '%' ∉ s ++ sv "://" := by
    rw [List.mem_append, not_or]
    exact ⟨hs.not_mem (by decide), by decide⟩
  have hback : ch '%' ∉ h ++ p ++ sv "?" := by
    rw [List.mem_append, List.mem_append, not_or, not_or]
    exact ⟨⟨hh.not_mem (by decide), hp⟩, by decide⟩
  exact (Escaped.of_not_mem hfront).append ((Escaped.of_not_mem hback).append hq)

/-- The parts of a url with a scheme, from the userinfo on. -/
theorem ofText_authority (hs : Unreserved s) (t : Bytes) (ht : t ≠ []) :
    UrlParts.ofText (s ++ sv "://" ++ t) = UrlParts.readUserinfo { scheme := some s } t := by
  have htext : s ++ sv "://" ++ t = s ++ ch ':' :: (sv "//" ++ t) := by
    rw [List.append_assoc]
    rfl
  rw [htext, UrlParts.ofText_append (hs.not_mem (by decide)), UrlParts.readAuthority,
    if_neg (by simp [ht]), if_pos (List.prefix_append _ _)]
  rfl

theorem authorityText_ne_nil (h p q : Bytes) : authorityText h p q ≠ [] := by
  simp [authorityText, sv]

/-- Without an `@`, the parts are those that stand there. -/
theorem readUserinfo_authority (hh : Unreserved h) (hp : ∀ c ∈ p.head?, c = ch '/')
    (hp' : ∀ c ∈ p, unreserved c = true ∨ c = ch '/') (hq : q ≠ []) (hhash : ch '#' ∉ q)
    (hat : ch '@' ∉ q) :
    UrlParts.readUserinfo { scheme := some s } (authorityText h p q) =
      some ⟨some s, none, h, none, p, some q, none⟩ := by
  have hpath : ∀ c ∈ special, c ≠ ch '/' → c ∉ p := by
    intro c hc hslash hmem
    rcases hp' c hmem with hc' | hc'
    · rw [not_unreserved_of_special hc] at hc'
      cases hc'
    · exact hslash hc'
  have htext : UrlParts.hostText ⟨some s, none, h, none, p, some q, none⟩ = authorityText h p q := by
    simp [UrlParts.hostText, UrlParts.portText, UrlParts.pathText, UrlParts.queryText, UrlParts.fragmentText,
      authorityText, sv]
  rw [UrlParts.readUserinfo_iff]
  refine ⟨rfl, ?_, ?_, ⟨⟨?_, hhash, by simp, by simpa using hq⟩, ?_, by simp, hp, by simp⟩, by simp, fun _ => ?_⟩
  · rw [htext]
    rfl
  · rw [htext]
    exact authorityText_ne_nil h p q
  · have hsub : ∀ c ∈ sv "?#", c ∈ special ∧ c ≠ ch '/' := by decide
    exact fun c hc => hpath c (hsub c hc).1 (hsub c hc).2
  · exact fun c hc => hh.not_mem ((by decide : ∀ c ∈ sv ":/?#", c ∈ special) c hc)
  · rw [htext, authorityText]
    simp only [List.mem_append, not_or]
    exact ⟨⟨⟨hh.not_mem (by decide), hpath _ (by decide) (by decide)⟩, by decide⟩, hat⟩

/-- With an `@`, what stands in front of it is taken for a username: it starts with the host. -/
theorem username_ne_nil {parts : UrlParts} (hne : h ≠ []) (hh : Unreserved h) (hat : ch '@' ∈ q)
    (hparts : UrlParts.readUserinfo { scheme := some s } (authorityText h p q) = some parts) :
    parts.url.decoded.userinfo.username ≠ [] := by
  obtain ⟨-, htext, -, -, -, hnone⟩ := UrlParts.readUserinfo_iff.1 hparts
  obtain ⟨c, h, rfl⟩ := List.exists_cons_of_ne_nil hne
  have hc : ∀ d ∈ special, c ≠ d := fun d hd hcd => hh.not_mem hd (hcd ▸ List.mem_cons_self)
  rcases huserinfo : parts.userinfo with _ | userinfo
  · -- All would be behind the userinfo, and there is no `@`.
    rw [UrlParts.userinfoText, huserinfo, Option.elim_none, List.nil_append] at htext
    refine absurd ?_ (hnone huserinfo)
    rw [htext, authorityText]
    exact List.mem_append_right _ hat
  · rw [UrlParts.userinfoText, huserinfo, Option.elim_some, authorityText] at htext
    rcases userinfo with _ | ⟨d, userinfo⟩
    · exact absurd (List.cons.inj htext).1.symm (hc _ (by decide))
    · obtain ⟨rfl, -⟩ := List.cons.inj htext
      have hcut : (cut (sv ":") (d :: userinfo)).1 = d :: (cut (sv ":") userinfo).1 := by
        rw [cut, cut, List.takeWhile_cons_of_pos]
        simpa [sv] using hc (ch ':') (by decide)
      change percentDecode (userinfoOf (parts.userinfo.getD [])).username ≠ []
      rw [huserinfo, Option.getD_some, userinfoOf, hcut, percentDecode_cons (hc _ (by decide))]
      exact List.cons_ne_nil _ _

end Authority

/-- The host, the path and the userinfo of a url with a query are those that stand there if and only if there
    is no `@` in the query. -/
theorem parse_host_iff {s h p q : Bytes} (hs : Unreserved s) (hne : h ≠ []) (hh : Unreserved h)
    (hp : ∀ c ∈ p.head?, c = ch '/') (hp' : ∀ c ∈ p, unreserved c = true ∨ c = ch '/') (hq : q ≠ [])
    (hhash : ch '#' ∉ q) (hescaped : Escaped q) :
    (∃ u, Url.parse (s ++ sv "://" ++ (h ++ p ++ sv "?" ++ q)) = some (.ok u) ∧
      u.host = h ∧ u.path = p ∧ u.userinfo = {}) ↔ ch '@' ∉ q := by
  have hpercent : ch '%' ∉ p := by
    intro hmem
    exact absurd (hp' _ hmem) (by decide)
  have htext := escaped_authority hs hh hpercent hescaped
  have hparse := ofText_authority hs (authorityText h p q) (authorityText_ne_nil h p q)
  constructor
  · rintro ⟨u, hu, -, -, huserinfo⟩ hat
    obtain ⟨parts, hparts, rfl⟩ := (parse_eq_ok_iff htext).1 hu
    refine username_ne_nil hne hh hat (hparse.symm.trans hparts) ?_
    rw [huserinfo]
  · intro hat
    refine ⟨_, (parse_eq_ok_iff htext).2
      ⟨_, hparse.trans (readUserinfo_authority hh hp hp' hq hhash hat), rfl⟩, ?_, ?_, rfl⟩
    · exact percentDecode_of_not_mem (hh.not_mem (by decide))
    · exact percentDecode_of_not_mem hpercent

theorem parse_host_iff_mail :
    ∃ u, Url.parse (sv "http://h.x/a?to=b:%40c") = some (.ok u) ∧ u.host = sv "h.x" ∧ u.path = sv "/a" ∧
      u.userinfo = {} :=
  (parse_host_iff (s := sv "http") (h := sv "h.x") (p := sv "/a") (q := sv "to=b:%40c") (by decide) (by decide)
    (by decide) (by decide) (by decide) (by decide) (by decide) (by decide)).2 (by decide)

/-- The host is in the query. -/
theorem parse_host_of_query :
    Url.parse (sv "http://h.x/a?to=b@evil") =
        some (.ok { scheme := sv "http", userinfo := ⟨sv "h.x/a?to=b", []⟩, host := sv "evil" }) ∧
      ¬∃ u, Url.parse (sv "http://h.x/a?to=b@evil") = some (.ok u) ∧ u.host = sv "h.x" ∧ u.path = sv "/a" ∧
        u.userinfo = {} := by
  have hparse : Url.parse (sv "http://h.x/a?to=b@evil") =
      some (.ok { scheme := sv "http", userinfo := ⟨sv "h.x/a?to=b", []⟩, host := sv "evil" }) := by
    decide
  refine ⟨hparse, ?_⟩
  rintro ⟨u, hu, hhost, -, -⟩
  rw [hparse] at hu
  cases hu
  exact absurd hhost (by decide)

end Cppnet.Url
