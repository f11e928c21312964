import Cppnet.Http.Decode
import Cppnet.Url.PartsText

/-!
# Request targets

The target of a request is a path, mostly: it starts with `/`, maybe with a query and a fragment
behind it. `parse_request_line` takes it for a url, whose scheme is all that is in front of the
first `:`, wherever that is. So the path that is routed is that of the target if and only if there
is no `:` in the target (`target_iff`).
-/

namespace Cppnet.Http

open Lib Url

/-- Behind every `?` and `#`, there is something else than the next of them. -/
def Delimited : Bytes → Prop
  | [] => True
  | c :: s => (c ∈ sv "?#" → s ≠ [] ∧ ∀ d ∈ s.head?, d ∉ sv "?#") ∧ Delimited s

instance decidableDelimited : (s : Bytes) → Decidable (Delimited s)
  | [] => .isTrue trivial
  | _ :: s => @instDecidableAnd _ _ _ (decidableDelimited s)

/-- A target in origin form. -/
structure OriginForm (target : Bytes) : Prop where
  slash : target.head? = some (ch '/')
  no_slashes : ¬sv "//" <+: target
  delimited : Delimited target
  escaped : Escaped target

/-- The path of a target: what is in front of the first `?` or `#`, decoded. -/
def targetPath (target : Bytes) : Bytes := percentDecode (cut (sv "?#") target).1

/-- A target is parsed as a path with a query and a fragment, and the path of the request is the path
    of the target, whatever the rest of the request is. -/
structure RoutedByPath (target : Bytes) : Prop where
  parses : ∃ u, Url.parse target = some (.ok u) ∧ u.scheme = [] ∧ u.userinfo = {} ∧ u.host = [] ∧
    u.port = [] ∧ u.path = targetPath target
  routes : ∀ (method : RequestMethod) (version : Bytes) (v : ProtocolVersion) (headers : Headers),
    method ≠ .none → parseHttpVersion version = .ok v → ch ' ' ∉ target →
    ∃ req, requestLine (methodString method ++ ch ' ' :: (target ++ ch ' ' :: version)) =
      some (.ok req) ∧ (completeRequest req headers).uri.path = targetPath target

section Delimited

variable {a s : Bytes} {c : Byte}

theorem Delimited.of_append (h : Delimited (a ++ s)) : Delimited s := by
  induction a with
  | nil => exact h
  | cons x a ih => exact ih h.2

/-- Behind a delimiter. -/
theorem Delimited.ne_nil (h : Delimited (a ++ c :: s)) (hc : c ∈ sv "?#") : s ≠ [] := (h.of_append.1 hc).1

end Delimited

/-- A path with what is behind it has parts. -/
theorem exists_readPath {t : Bytes} (hne : t ≠ []) (ht : Delimited t) :
    ∃ p, UrlParts.readPath {} t = some p ∧ p.path = (cut (sv "?#") t).1 := by
  obtain ⟨htext, hpath, hhead⟩ := cut_spec (sv "?#") t
  obtain ⟨s, r, hcut⟩ : ∃ s r, cut (sv "?#") t = (s, r) := ⟨_, _, rfl⟩
  rw [hcut] at htext hpath hhead ⊢
  dsimp only at htext hpath hhead ⊢
  rcases r with _ | ⟨c, r⟩
  · exact ⟨{ path := s }, UrlParts.readPath_iff.2 ⟨rfl, rfl, rfl, rfl, htext, hne, hpath, by simp, by simp,
      by simp⟩, rfl⟩
  · rw [← htext] at ht
    have hr := ht.ne_nil (hhead c rfl)
    rcases List.mem_pair.1 (show c ∈ [ch '?', ch '#'] from hhead c rfl) with rfl | rfl
    · by_cases hhash : ch '#' ∈ r
      · obtain ⟨y, f, rfl, hy⟩ := List.eq_append_cons_of_mem hhash
        have hf : f ≠ [] := by
          refine Delimited.ne_nil (a := s ++ ch '?' :: y) (c := ch '#') ?_ (by decide)
          simpa using ht
        exact ⟨{ path := s, query := some y, fragment := some f }, UrlParts.readPath_iff.2 ⟨rfl, rfl, rfl,
          rfl, by simpa [UrlParts.pathText, UrlParts.queryText, UrlParts.fragmentText] using htext, hne,
          hpath, hy, by simpa using hf, by simp⟩, rfl⟩
      · exact ⟨{ path := s, query := some r }, UrlParts.readPath_iff.2 ⟨rfl, rfl, rfl, rfl,
          by simpa [UrlParts.pathText, UrlParts.queryText, UrlParts.fragmentText] using htext, hne,
          hpath, hhash, by simp, by simpa using hr⟩, rfl⟩
    · exact ⟨{ path := s, fragment := some r }, UrlParts.readPath_iff.2 ⟨rfl, rfl, rfl, rfl,
        by simpa [UrlParts.pathText, UrlParts.queryText, UrlParts.fragmentText] using htext, hne, hpath,
        by simp, by simpa using hr, by simp⟩, rfl⟩

theorem completeRequest_path (req : ServerRequest) (headers : Headers) :
    (completeRequest req headers).uri.path = req.uri.path := by
  rw [completeRequest]
  split_ifs <;> rfl

/-- A target in origin form is routed by its path if and only if there is no `:` in it. -/
theorem target_iff (target : Bytes) (h : OriginForm target) : RoutedByPath target ↔ ch ':' ∉ target := by
  have hne : target ≠ [] := by
    rintro rfl
    exact absurd h.slash (by simp)
  constructor
  · rintro hrouted hcolon
    obtain ⟨u, hparse, hscheme, -⟩ := hrouted.parses
    obtain ⟨parts, hparts, rfl⟩ := (parse_eq_ok_iff h.escaped).1 hparse
    obtain ⟨scheme, rest, rfl, hnot⟩ := List.eq_append_cons_of_mem hcolon
    -- What is in front of the `:` starts with a slash.
    obtain ⟨scheme, rfl⟩ : ∃ s, scheme = ch '/' :: s := by
      rcases scheme with _ | ⟨c, s⟩
      · exact absurd h.slash (by simp; decide)
      · exact ⟨s, by rw [Option.some.inj h.slash]⟩
    rw [UrlParts.ofText_append hnot] at hparts
    change percentDecode (parts.scheme.getD []) = [] at hscheme
    rw [UrlParts.readAuthority_scheme hparts, Option.getD_some, percentDecode_cons (by decide)] at hscheme
    cases hscheme
  · intro hcolon
    obtain ⟨p, hp, hpath⟩ := exists_readPath hne h.delimited
    obtain ⟨hscheme, huserinfo, hhost, hport, -⟩ := UrlParts.readPath_iff.1 hp
    have hparts : UrlParts.ofText target = some p := by
      rw [UrlParts.ofText_of_not_mem hcolon, if_neg hne, if_neg h.no_slashes, if_pos h.slash, hp]
    have hparse := (parse_eq_ok_iff h.escaped).2 ⟨p, hparts, rfl⟩
    have hpath' : p.url.decoded.path = targetPath target := congrArg percentDecode hpath
    refine ⟨⟨_, hparse, ?_, ?_, ?_, ?_, hpath'⟩, ?_⟩
    · change percentDecode (p.scheme.getD []) = []
      rw [hscheme]
      rfl
    · change UserInfo.mk (percentDecode (userinfoOf (p.userinfo.getD [])).username)
        (percentDecode (userinfoOf (p.userinfo.getD [])).password) = {}
      rw [huserinfo]
      rfl
    · exact congrArg percentDecode hhost
    · change percentDecode (p.port.getD []) = []
      rw [hport]
      rfl
    · intro method version v headers hmethod hversion hspace
      refine ⟨_, requestLine_eq hmethod hspace (requestUri_eq hparse) hversion, ?_⟩
      rw [completeRequest_path]
      exact hpath'

/-- A target with a query and an escape. -/
theorem target_iff_query : OriginForm (sv "/a%20b?k=v#f") ∧ RoutedByPath (sv "/a%20b?k=v#f") := by
  have h : OriginForm (sv "/a%20b?k=v#f") := ⟨by decide, by decide, by decide, by decide⟩
  exact ⟨h, (target_iff _ h).2 (by decide)⟩

/-- A `:` in the last segment of the path. -/
theorem target_colon :
    OriginForm (sv "/a/b:c") ∧
      Url.parse (sv "/a/b:c") = some (.ok { scheme := sv "/a/b", path := sv "c" }) ∧
      ¬RoutedByPath (sv "/a/b:c") := by
  have hparse : Url.parse (sv "/a/b:c") = some (.ok { scheme := sv "/a/b", path := sv "c" }) := by decide
  refine ⟨⟨by decide, by decide, by decide, by decide⟩, hparse, fun h => ?_⟩
  obtain ⟨u, hu, hscheme, -⟩ := h.parses
  rw [hparse] at hu
  cases hu
  exact absurd hscheme (by decide)

end Cppnet.Http
