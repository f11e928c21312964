import Cppnet.Url.Rebuild

/-!
# Building and parsing urls

`parse` undoes `build` for urls with a scheme and a host, made of unreserved
characters (`parse_build_equal`): there are no delimiters inside of their components, and none of
them is taken for something else.
-/

namespace Cppnet

open Lib

/-- The characters of urls that stand for themselves: letters, digits, and `-._~`. -/
def unreserved (c : Byte) : Bool :=
  (ch 'A' ≤ c ∧ c ≤ ch 'Z') ∨ (ch 'a' ≤ c ∧ c ≤ ch 'z') ∨ (ch '0' ≤ c ∧ c ≤ ch '9') ∨
    c ∈ sv "-._~"

/-- The characters with a meaning in a url or in a request line. -/
def special : Bytes := sv "%:/?#@=& *" ++ crlf

theorem not_unreserved_of_special {c : Byte} (hc : c ∈ special) : unreserved c = false := by
  have h : ∀ c ∈ special, unreserved c = false := by decide
  exact h c hc

/-- Only unreserved characters. -/
def Unreserved (s : Bytes) : Prop := ∀ c ∈ s, unreserved c = true

instance (s : Bytes) : Decidable (Unreserved s) := inferInstanceAs (Decidable (∀ c ∈ s, _))

theorem Unreserved.not_mem {s : Bytes} (hs : Unreserved s) {c : Byte} (hc : c ∈ special) :
    c ∉ s := by
  intro h
  have := hs c h
  rw [not_unreserved_of_special hc] at this
  cases this

/-! ## The round trip -/

namespace Url

/-- A url with a scheme and a host, every component of it made of unreserved
    characters, and every key of the query with a value. -/
structure Plain (u : Url) : Prop where
  scheme_ne_nil : u.scheme ≠ []
  host_ne_nil : u.host ≠ []
  scheme : Unreserved u.scheme
  username : Unreserved u.userinfo.username
  password : Unreserved u.userinfo.password
  host : Unreserved u.host
  port : Unreserved u.port
  path_head : ∀ c ∈ u.path.head?, c = ch '/'
  path : ∀ c ∈ u.path, unreserved c = true ∨ c = ch '/'
  query : ∀ e ∈ u.query.entries, e.2 ≠ [] ∧ Unreserved e.1 ∧ ∀ v ∈ e.2, Unreserved v
  fragment : Unreserved u.fragment

section Plain

variable {u : Url} (hu : u.Plain)

include hu

theorem Plain.not_mem_path {c : Byte} (hc : c ∈ special) (hslash : c ≠ ch '/') : c ∉ u.path := by
  intro h
  rcases hu.path c h with h | h
  · rw [not_unreserved_of_special hc] at h
    cases h
  · exact hslash h

/-- No delimiters inside of the components. -/
theorem Plain.separated : u.Separated where
  scheme := hu.scheme.not_mem (by decide)
  username c hc := hu.username.not_mem ((by decide : ∀ c ∈ sv ":@", c ∈ special) c hc)
  password := hu.password.not_mem (by decide)
  host c hc := hu.host.not_mem ((by decide : ∀ c ∈ sv ":/?#", c ∈ special) c hc)
  port c hc := hu.port.not_mem ((by decide : ∀ c ∈ sv "/?#", c ∈ special) c hc)
  path c hc := by
    have h : ∀ c ∈ sv "?#", c ∈ special ∧ c ≠ ch '/' := by decide
    exact hu.not_mem_path (h c hc).1 (h c hc).2
  keys e he c hc := (hu.query e he).2.1.not_mem ((by decide : ∀ c ∈ sv "&=#", c ∈ special) c hc)
  vals e he v hv c hc :=
    ((hu.query e he).2.2 v hv).not_mem ((by decide : ∀ c ∈ sv "&#", c ∈ special) c hc)

variable {order : List (Bytes × List Bytes)} (horder : order.Perm u.query.entries)

include horder

/-- No special character in what is behind the userinfo, but those that stand between its components. -/
theorem Plain.not_mem_hostText {c : Byte} (hc : c ∈ special) (hne : c ∉ sv ":/?#&=") :
    c ∉ u.hostText order := by
  have hsub : ∀ d ∈ sv ":?#&=", d ∈ sv ":/?#&=" := by decide
  rw [mem_hostText_iff fun h => hne (hsub c h)]
  rintro (h | h | h | ⟨⟨key, val⟩, hkv, h⟩ | h)
  · exact hu.host.not_mem hc h
  · exact hu.port.not_mem hc h
  · refine hu.not_mem_path hc (fun hslash => hne ?_) h
    rw [hslash]
    decide
  · obtain ⟨vals, he, hval⟩ := mem_params_iff.1 hkv
    obtain ⟨-, hkey, hvals⟩ := hu.query _ (horder.mem_iff.1 he)
    exact h.elim (hkey.not_mem hc) ((hvals val hval).not_mem hc)
  · exact hu.fragment.not_mem hc h

/-- No special character in a url, but those that stand between its components. -/
theorem Plain.not_mem_build {c : Byte} (hc : c ∈ special) (hne : c ∉ sv ":/?#&=@") :
    c ∉ u.build order := by
  have hsub : ∀ d ∈ sv ":/?#&=", d ∈ sv ":/?#&=@" := by decide
  rw [mem_build_iff hne]
  rintro (h | h | h | h)
  · exact hu.scheme.not_mem hc h
  · exact hu.username.not_mem hc h
  · exact hu.password.not_mem hc h
  · exact hu.not_mem_hostText horder hc (fun h => hne (hsub c h)) h

theorem Plain.rebuildable : u.Rebuildable order where
  values e he := (hu.query e he).1
  path_head := hu.path_head
  of_scheme _ := .inr (hu.not_mem_hostText horder (by decide) (by decide))
  of_no_scheme h := absurd h hu.scheme_ne_nil

/-- Parsing what was built gives back the url: for every order in which the query
    was iterated, the same components, and a query with the same entries. -/
theorem Plain.parse_build : ∃ query : QueryValues, query.entries = order ∧
    Url.parse (u.build order) = some (.ok { u with query }) := by
  have hne : u.hostText order ≠ [] := by
    rw [hostText, ne_eq, List.append_eq_nil_iff]
    exact fun h => hu.host_ne_nil h.1
  exact UrlParts.parse_build_of_rebuildable hu.separated horder (hu.rebuildable horder) hne
    (hu.not_mem_build horder (by decide) (by decide))

end Plain

/-- Parsing undoes building, for every order in which the query is iterated. -/
theorem parse_build_equal (u : Url) (hu : u.Plain) (order : List (Bytes × List Bytes))
    (horder : order.Perm u.query.entries) :
    ∃ v, Url.parse (u.build order) = some (.ok v) ∧ v.Equal u := by
  obtain ⟨query, hquery, hparse⟩ := hu.parse_build horder
  refine ⟨_, hparse, rfl, rfl, rfl, rfl, rfl, ?_, rfl⟩
  change query.entries.Perm u.query.entries
  rwa [hquery]

/-- A url with a password, a path, and two values of a key of the query. -/
theorem parse_build_equal_full :
    let u : Url :=
      { scheme := sv "https", userinfo := ⟨[], sv "pw"⟩, host := sv "a.b", port := sv "80",
        path := sv "/x/", query := .addAll .empty [(sv "k", sv "1"), (sv "l", []), (sv "k", sv "2")],
        fragment := sv "f" }
    ∃ v, Url.parse (u.build [(sv "l", [[]]), (sv "k", [sv "1", sv "2"])]) = some (.ok v) ∧
      v.Equal u :=
  parse_build_equal _ ⟨by decide, by decide, by decide, by decide, by decide, by decide, by decide,
    by decide, by decide, by decide, by decide⟩ [(sv "l", [[]]), (sv "k", [sv "1", sv "2"])]
    (by decide)

end Url

end Cppnet
