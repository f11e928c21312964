import Cppnet.Url.Bounds
import Cppnet.Url.Query

/-!
# The parameters of a query

What `parse_query` collects, as a map: the keys are those of the parameters, and the values of a key are all that
the parameters give to it, in their order (`parseQuery_collects`). A parameter without a value counts for its key
only, whether the key has values or not.

The parser gets to the query with no values in its map (`query_eq_empty_of_reaches`).
-/

namespace Cppnet

open Lib

namespace Url

/-- The values that some parameters give to a key. -/
def valuesOf (key : Bytes) (parts : List Bytes) : List Bytes :=
  ((parts.filterMap paramOf).filter (·.1 = key)).map Prod.snd

section Values

variable {query : QueryValues} {key : Bytes} {part : Bytes} {ps : List Bytes}

theorem valuesOf_cons_of_none (h : paramOf part = none) : valuesOf key (part :: ps) = valuesOf key ps := by
  rw [valuesOf, List.filterMap_cons_none h, valuesOf]

theorem valuesOf_cons_of_some {k v : Bytes} (h : paramOf part = some (k, v)) :
    valuesOf key (part :: ps) = if k = key then v :: valuesOf key ps else valuesOf key ps := by
  rw [valuesOf, List.filterMap_cons_some h, List.filter_cons, valuesOf]
  by_cases hk : k = key <;> simp [hk]

/-- A parameter adds its value to those of its key, if it has one, and otherwise leaves them as they are. -/
theorem find?_addPart (query : QueryValues) (part key : Bytes) :
    (addPart query part).find? key =
      if keyOf part = key then some ((query.find? key).getD [] ++ valuesOf key [part]) else query.find? key := by
  rcases hpart : paramOf part with _ | ⟨k, v⟩
  · rw [addPart_of_none hpart, KeyedMap.find?_alter, valuesOf_cons_of_none hpart]
    simp [valuesOf]
  · rw [addPart_of_some hpart, KeyedMap.push, KeyedMap.find?_alter, valuesOf_cons_of_some hpart,
      keyOf_of_some hpart]
    by_cases hk : k = key <;> simp [hk, valuesOf]

theorem valuesOf_append (ps ps' : List Bytes) :
    valuesOf key (ps ++ ps') = valuesOf key ps ++ valuesOf key ps' := by
  rw [valuesOf, List.filterMap_append, List.filter_append, List.map_append]
  rfl

theorem valuesOf_eq_nil (h : ∀ part ∈ ps, keyOf part ≠ key) : valuesOf key ps = [] := by
  rw [valuesOf, List.map_eq_nil_iff, List.filter_eq_nil_iff]
  intro kv hkv
  obtain ⟨part, hpart, hparam⟩ := List.mem_filterMap.1 hkv
  have hkey : keyOf part = kv.1 := keyOf_of_some hparam
  simpa [← hkey] using h part hpart

/-- The values are added in the order of the parameters. -/
theorem find?_foldl_addPart (query : QueryValues) (ps : List Bytes) (key : Bytes) :
    (ps.foldl addPart query).find? key =
      if ∃ part ∈ ps, keyOf part = key then some ((query.find? key).getD [] ++ valuesOf key ps)
      else query.find? key := by
  induction ps generalizing query with
  | nil => simp
  | cons part ps ih =>
    have hvalues : valuesOf key (part :: ps) = valuesOf key [part] ++ valuesOf key ps := valuesOf_append [part] ps
    rw [List.foldl_cons, ih, find?_addPart, hvalues]
    by_cases hpart : keyOf part = key
    · have hcons : ∃ part' ∈ part :: ps, keyOf part' = key := ⟨part, List.mem_cons_self, hpart⟩
      rw [if_pos hpart, if_pos hcons, Option.getD_some, List.append_assoc]
      split_ifs with hps
      · rfl
      · -- No other parameter has the key, and so none has a value for it.
        have hnil : valuesOf key ps = [] := valuesOf_eq_nil (fun part hpart hkey => hps ⟨part, hpart, hkey⟩)
        rw [hnil, List.append_nil]
    · have hnil : valuesOf key [part] = [] := valuesOf_eq_nil (by simpa using hpart)
      rw [if_neg hpart, hnil, List.nil_append]
      simp only [List.exists_mem_cons_iff, hpart, false_or]

end Values

end Url

namespace UrlParser

variable {p : UrlParser}

/-- What `parse_query` makes of the text up to the fragment, or to the end. -/
theorem parseQuery_escaped {pre raw tail : Bytes} (hinput : p.input = pre ++ (raw ++ tail))
    (hstart : p.start = pre.length) (htail : tail = [] ∨ tail.head? = some (ch '#')) (hraw : ch '#' ∉ raw)
    (hescaped : Url.Escaped raw) :
    ∃ q, p.parseQuery = some q ∧
      q.out = { p.out with query := (Url.queryParts raw).foldl Url.addPart p.out.query } := by
  have hloop := queryLoop_eq hescaped (Nat.lt_succ_self raw.length) p.out.query
  rw [parseQuery, hinput, hstart]
  rcases tail with _ | ⟨c, tail⟩
  · rw [List.append_nil, find_eq_none pre hraw]
    dsimp only
    rw [List.drop_left, hloop]
    exact ⟨_, rfl, rfl⟩
  · obtain rfl : c = ch '#' := by simpa using htail
    rw [find_eq_some pre tail hraw]
    dsimp only
    rw [Nat.add_sub_cancel_left, substr_append, hloop]
    exact ⟨_, rfl, rfl⟩

/-- A component that goes up to some delimiters is none of the query. -/
theorem parseUpTo_query (delims : Bytes) (set : Url → Bytes → Url) (hset : ∀ u t, (set u t).query = u.query)
    (p : UrlParser) : (p.parseUpTo delims set).out.query = p.out.query := by
  rw [parseUpTo]
  split
  · rw [dispatch]
    split_ifs <;> exact hset _ _
  · exact hset _ _

/-- A turn in front of the query leaves it as it is. -/
theorem stepWith_query {read : QueryValues → Bytes → QueryValues}
    (h : UrlParseState.query.rank ≤ (p.stepWith read).state.rank) :
    UrlParseState.query.rank ≤ p.state.rank ∧ (p.stepWith read).out.query = p.out.query := by
  rw [stepWith] at h ⊢
  split at h <;> rename_i hstate
  case h_7 =>
    rw [parseQueryWith] at h
    split at h
    · exact absurd h (show ¬2 ≤ 1 by decide)
    · exact absurd h (show ¬2 ≤ 0 by decide)
  case h_8 => exact absurd h (show ¬2 ≤ 0 by decide)
  case h_9 =>
    change 2 ≤ p.state.rank at h
    rw [hstate] at h
    exact absurd h (by decide)
  all_goals refine ⟨by rw [hstate]; decide, ?_⟩
  · rw [parseScheme]
    dsimp only
    split_ifs <;> rfl
  · rw [parseAuthority]
    split_ifs <;> rfl
  · rw [parseUserinfo]
    split <;> rfl
  · exact parseUpTo_query (sv ":/?#") (fun out host => { out with host }) (fun _ _ => rfl) p
  · exact parseUpTo_query (sv "/?#") (fun out port => { out with port }) (fun _ _ => rfl) p
  · exact parseUpTo_query (sv "?#") (fun out path => { out with path }) (fun _ _ => rfl) p

/-- The parser is given no values, and has none in front of the query. -/
theorem query_eq_empty_of_reaches {s : Bytes} (h : Loop.Reaches turn { input := s } p)
    (hrank : UrlParseState.query.rank ≤ p.state.rank) : p.out.query = .empty := by
  refine h.invariant (fun p => UrlParseState.query.rank ≤ p.state.rank → p.out.query = .empty) ?_ (fun _ => rfl) hrank
  intro p q hp hturn hq
  have hwith := turn_eq hturn
  rw [turnWith] at hwith
  split_ifs at hwith <;> cases hwith
  obtain ⟨hrank, hquery⟩ := stepWith_query hq
  rw [hquery, hp hrank]

/-- The map has the keys of the parameters, and no others; the values of a key are those of the parameters with it,
    in their order. Nothing else of the url changes. -/
theorem parseQuery_collects (p : UrlParser) (pre raw tail : Bytes) (hquery : p.out.query = .empty)
    (hinput : p.input = pre ++ (raw ++ tail)) (hstart : p.start = pre.length)
    (htail : tail = [] ∨ tail.head? = some (ch '#')) (hraw : ch '#' ∉ raw) (hescaped : Url.Escaped raw) :
    ∃ q, p.parseQuery = some q ∧ q.out = { p.out with query := q.out.query } ∧
      (∀ key, key ∈ q.out.query.keys ↔ ∃ part ∈ Url.queryParts raw, Url.keyOf part = key) ∧
      ∀ key ∈ q.out.query.keys, q.out.query.find? key = some (Url.valuesOf key (Url.queryParts raw)) := by
  obtain ⟨q, hq, hout⟩ := parseQuery_escaped hinput hstart htail hraw hescaped
  rw [hquery] at hout
  change q.out = { p.out with query := Url.queryValues raw } at hout
  refine ⟨q, hq, by rw [hout], fun key => ?_, fun key hkey => ?_⟩
  · rw [hout]
    exact Url.mem_keys_queryValues
  · rw [hout] at hkey ⊢
    have hpart := Url.mem_keys_queryValues.1 hkey
    change (Url.queryValues raw).find? key = _
    rw [Url.queryValues, Url.find?_foldl_addPart, if_pos hpart]
    rfl

theorem parseQuery_collects_repeated :
    Url.valuesOf (sv "a") (Url.queryParts (sv "a=1&b&a=%32&a&=")) = [sv "1", sv "2"] ∧
      ∃ q, parseQuery { input := sv "/?a=1&b&a=%32&a&=#f", state := .query, start := 2, stop := 2 } = some q ∧
        q.out = { query := q.out.query } ∧
        (∀ key, key ∈ q.out.query.keys ↔ ∃ part ∈ Url.queryParts (sv "a=1&b&a=%32&a&="), Url.keyOf part = key) ∧
        ∀ key ∈ q.out.query.keys,
          q.out.query.find? key = some (Url.valuesOf key (Url.queryParts (sv "a=1&b&a=%32&a&="))) :=
  ⟨by decide +kernel, parseQuery_collects _ (sv "/?") (sv "a=1&b&a=%32&a&=") (sv "#f") rfl (by decide +kernel) rfl
    (.inr rfl) (by decide) (by decide +kernel)⟩

end UrlParser

end Cppnet
