import Cppnet.Bytes
import Cppnet.Util.Replace

/-!
# Labels

`base_metric::encode_one_label`: the name of a label, and its value between quotes, with a backslash, a quote and a
line feed written as two bytes.

The task is that of `write_all`, which refers to temporaries of `encode_one_label`; they are gone when it runs, and so
are the parameters of `writer::write(char)`. What is then found in their places is not specified (`Found`).

* `encodeOneLabel_exact_iff`: what is between the quotes has no line feed, and a quote only behind a backslash that
  escapes it, and reading it from left to right gives the value back, if and only if what is found is what was there.
-/

namespace Cppnet.Prometheus

open Io Lib Util

/-- The replacements in the values of labels. -/
def labelReplacements : List (Bytes × Bytes) :=
  [(sv "\\", sv "\\\\"), (sv "\"", sv "\\\""), (sv "\n", sv "\\n")]

/-- What is found of the two views of quotes, and of the character at the front of what is left of the value, when that
    is written. -/
structure Found where
  opening : Bytes
  closing : Bytes
  front : Bytes → Byte

/-- What `encode_one_label` has written: the name of the label, by value, the two views, and the call for the value. -/
def labelParts {ω : Type*} [Writer ω Byte ErrorCondition] (found : Found) (labelName labelValue : Bytes) :
    List (WritePart ω) :=
  [.data labelName, .data found.opening, replaceAllTo found.front labelValue labelReplacements, .data found.closing]

/-- `encode_one_label`. -/
def encodeOneLabel {ω : Type*} [Writer ω Byte ErrorCondition] (found : Found) (labelName labelValue : Bytes) :
    WritePart ω := writeAll (labelParts found labelName labelValue)

/-- The views are those that were there, and so is each character of the value that is not replaced. -/
structure Found.Intact (found : Found) (labelValue : Bytes) : Prop where
  opening : found.opening = sv "=\""
  closing : found.closing = sv "\","
  front : ∀ c rest, c :: rest <:+ labelValue → c ∉ sv "\\\"\n" → found.front (c :: rest) = c

/-! ## Escapes -/

/-- How a byte is written. -/
def escape (c : Byte) : Bytes :=
  if c = ch '\\' then sv "\\\\" else if c = ch '"' then sv "\\\"" else if c = ch '\n' then sv "\\n" else [c]

/-- How a value is written. -/
def escaped (value : Bytes) : Bytes := value.flatMap escape

/-- How a value is written, with what is found of its characters. -/
def written (front : Bytes → Byte) : Bytes → Bytes
  | [] => []
  | c :: rest => (if c ∈ sv "\\\"\n" then escape c else [front (c :: rest)]) ++ written front rest

/-- The byte that an escape stands for. -/
def escapedByte (c : Byte) : Option Byte :=
  if c = ch '\\' then some (ch '\\')
  else if c = ch '"' then some (ch '"')
  else if c = ch 'n' then some (ch '\n')
  else none

/-- Reads a text from left to right, with a backslash and the byte behind it as an escape. -/
def unescape : Bytes → Option Bytes
  | [] => some []
  | [c] => if c = ch '\\' then none else some [c]
  | c :: c' :: text =>
    if c = ch '\\' then (escapedByte c').bind fun b => (unescape text).map (b :: ·)
    else (unescape (c' :: text)).map (c :: ·)

/-- Read from left to right, the text ends with a backslash that escapes what comes next. -/
def Escaping (text : Bytes) : Bool := text.foldl (fun escaping c => !escaping && c == ch '\\') false

/-- There is no quote but behind a backslash that escapes it. -/
def QuotesEscaped (text : Bytes) : Prop := ∀ i : ℕ, text[i]? = some (ch '"') → Escaping (text.take i)

theorem escaped_cons (c : Byte) (value : Bytes) : escaped (c :: value) = escape c ++ escaped value :=
  List.flatMap_cons

theorem escape_of_not_mem {c : Byte} (hc : c ∉ sv "\\\"\n") : escape c = [c] := by
  have hne : c ≠ ch '\\' ∧ c ≠ ch '"' ∧ c ≠ ch '\n' := by simpa [sv] using hc
  rw [escape, if_neg hne.1, if_neg hne.2.1, if_neg hne.2.2]

theorem replaceFront_label (front : Bytes → Byte) (c : Byte) (rest : Bytes) :
    replaceFront front labelReplacements c rest =
      (if c ∈ sv "\\\"\n" then escape c else [front (c :: rest)], rest) := by
  by_cases hc : c ∈ sv "\\\"\n"
  · rw [if_pos hc]
    have hcases : c = ch '\\' ∨ c = ch '"' ∨ c = ch '\n' := by simpa [sv] using hc
    rcases hcases with rfl | rfl | rfl
    · rfl
    · rfl
    · rfl
  · have hne : c ≠ ch '\\' ∧ c ≠ ch '"' ∧ c ≠ ch '\n' := by simpa [sv] using hc
    have hfind : labelReplacements.find? (fun r => r.1.isPrefixOf (c :: rest)) = none := by
      refine List.find?_eq_none.2 ?_
      simp [labelReplacements, sv, hne.1.symm, hne.2.1.symm, hne.2.2.symm]
    rw [replaceFront, hfind, if_neg hc]

theorem replaceFrom_label (front : Bytes → Byte) (value : Bytes) :
    replaceFrom front labelReplacements value.length value = written front value := by
  induction value with
  | nil => rfl
  | cons c value ih => rw [List.length_cons, replaceFrom, replaceFront_label, ih, written]

/-- A value is written as it should be, if each character that is not replaced is found. -/
theorem written_eq_iff {front : Bytes → Byte} {value : Bytes} : written front value = escaped value ↔
    ∀ c rest, c :: rest <:+ value → c ∉ sv "\\\"\n" → front (c :: rest) = c := by
  induction value with
  | nil => simp [written, escaped]
  | cons d value ih =>
    have hsuffix : (∀ c rest, c :: rest <:+ d :: value → c ∉ sv "\\\"\n" → front (c :: rest) = c) ↔
        (d ∉ sv "\\\"\n" → front (d :: value) = d) ∧
          ∀ c rest, c :: rest <:+ value → c ∉ sv "\\\"\n" → front (c :: rest) = c := by
      simp only [List.suffix_cons_iff, List.cons.injEq]
      constructor
      · exact fun h => ⟨h d value (.inl ⟨rfl, rfl⟩), fun c rest hrest => h c rest (.inr hrest)⟩
      · rintro ⟨h, htail⟩ c rest (⟨rfl, rfl⟩ | hrest)
        · exact h
        · exact htail c rest hrest
    rw [hsuffix, ← ih, written, escaped_cons]
    split_ifs with hd
    · rw [List.append_cancel_left_eq]
      simp [hd]
    · rw [escape_of_not_mem hd, List.singleton_append, List.singleton_append, List.cons.injEq]
      simp [hd]

theorem unescape_cons {c : Byte} (hc : c ≠ ch '\\') (text : Bytes) :
    unescape (c :: text) = (unescape text).map (c :: ·) := by
  cases text with
  | nil => simp [unescape, hc]
  | cons c' text => rw [unescape, if_neg hc]

/-- Reading gives the value back. -/
theorem unescape_escaped (value : Bytes) : unescape (escaped value) = some value := by
  induction value with
  | nil => rfl
  | cons c value ih =>
    -- A backslash at the front, and what it escapes.
    have hescape : ∀ c' : Byte, escape c = [ch '\\', c'] → escapedByte c' = some c →
        unescape (escape c ++ escaped value) = some (c :: value) := by
      intro c' hc hc'
      rw [hc, List.cons_append, List.singleton_append, unescape, if_pos rfl, hc', ih, Option.bind_some, Option.map_some]
    rw [escaped_cons]
    by_cases hbackslash : c = ch '\\'
    · subst hbackslash
      exact hescape (ch '\\') rfl rfl
    by_cases hquote : c = ch '"'
    · subst hquote
      exact hescape (ch '"') rfl rfl
    by_cases hfeed : c = ch '\n'
    · subst hfeed
      exact hescape (ch 'n') rfl rfl
    rw [escape, if_neg hbackslash, if_neg hquote, if_neg hfeed, List.singleton_append, unescape_cons hbackslash, ih,
      Option.map_some]

theorem not_mem_escaped (value : Bytes) : ch '\n' ∉ escaped value := by
  rw [escaped, List.mem_flatMap]
  rintro ⟨c, -, hc⟩
  rw [escape] at hc
  split_ifs at hc with hbackslash hquote hfeed
  · revert hc; decide
  · revert hc; decide
  · revert hc; decide
  · exact hfeed (List.mem_singleton.1 hc).symm

theorem QuotesEscaped.append {text text' : Bytes} (h : QuotesEscaped text) (htext : Escaping text = false)
    (h' : QuotesEscaped text') : QuotesEscaped (text ++ text') := by
  intro i hi
  rcases lt_or_ge i text.length with hlt | hge
  · rw [List.getElem?_append_left hlt] at hi
    rw [List.take_append_of_le_length hlt.le]
    exact h i hi
  · rw [List.getElem?_append_right hge] at hi
    rw [List.take_append, List.take_of_length_le hge, Escaping, List.foldl_append]
    rw [Escaping] at htext
    rw [htext]
    exact h' _ hi

/-- A backslash and what it escapes. -/
theorem quotesEscaped_pair (c : Byte) : QuotesEscaped [ch '\\', c] := by
  rintro (_ | _ | i) hi
  · cases hi
  · rfl
  · cases hi

/-- What a byte is written as has no quote that is not escaped, and escapes nothing behind it. -/
theorem quotesEscaped_escape (c : Byte) : QuotesEscaped (escape c) ∧ Escaping (escape c) = false := by
  rw [escape]
  split_ifs with hbackslash hquote hfeed
  · exact ⟨quotesEscaped_pair (ch '\\'), rfl⟩
  · exact ⟨quotesEscaped_pair (ch '"'), rfl⟩
  · exact ⟨quotesEscaped_pair (ch 'n'), rfl⟩
  · refine ⟨?_, by simp [Escaping, hbackslash]⟩
    rintro (_ | i) hi
    · exact absurd (Option.some_inj.1 hi) hquote
    · cases hi

theorem quotesEscaped_escaped (value : Bytes) : QuotesEscaped (escaped value) := by
  induction value with
  | nil => exact fun i hi => by simp [escaped] at hi
  | cons c value ih =>
    have hc := quotesEscaped_escape c
    exact hc.1.append hc.2 ih

/-- Behind a text that escapes nothing, quotes are escaped as they are without it. -/
theorem QuotesEscaped.of_append {text text' : Bytes} (h : QuotesEscaped (text ++ text'))
    (htext : Escaping text = false) : QuotesEscaped text' := by
  intro i hi
  have hescaping := h (text.length + i)
    (by rwa [List.getElem?_append_right (Nat.le_add_right _ _), Nat.add_sub_cancel_left])
  rw [List.take_length_add_append, Escaping, List.foldl_append] at hescaping
  rw [Escaping] at htext
  rwa [htext] at hescaping

/-- A byte that is escaped is written as a backslash and the byte that stands for it. -/
theorem escape_of_escapedByte {c b : Byte} (h : escapedByte c = some b) : escape b = [ch '\\', c] := by
  rw [escapedByte] at h
  split_ifs at h with hbackslash hquote hn
  · rw [hbackslash, ← Option.some_inj.1 h]
    rfl
  · rw [hquote, ← Option.some_inj.1 h]
    rfl
  · rw [hn, ← Option.some_inj.1 h]
    rfl

/-- A byte at the front that is no backslash is not escaped, and written as it is. -/
theorem QuotesEscaped.escape_head {c : Byte} {text : Bytes} (h : QuotesEscaped (c :: text))
    (hfeed : ch '\n' ∉ c :: text) (hbackslash : c ≠ ch '\\') : escape c = [c] := by
  have hquote : c ≠ ch '"' := by
    rintro rfl
    exact absurd (h 0 rfl) Bool.false_ne_true
  rw [escape, if_neg hbackslash, if_neg hquote, if_neg (List.ne_of_not_mem_cons hfeed).symm]

/-- A text without line feeds and quotes that are not escaped is read as the one value that is written so. -/
theorem eq_escaped_of_unescape {text : Bytes} : ∀ {value : Bytes}, ch '\n' ∉ text → QuotesEscaped text →
    unescape text = some value → text = escaped value := by
  induction text using unescape.induct with
  | case1 =>
    rintro value - - hread
    cases hread
    rfl
  | case2 =>
    rintro value - - hread
    cases hread
  | case3 c hc =>
    intro value hfeed hquotes hread
    rw [unescape, if_neg hc] at hread
    cases hread
    exact (congrArg (· ++ []) (hquotes.escape_head hfeed hc)).symm
  | case4 c' text ih =>
    intro value hfeed hquotes hread
    rw [unescape, if_pos rfl] at hread
    obtain ⟨b, hb, hread⟩ := Option.bind_eq_some_iff.1 hread
    obtain ⟨value', hvalue', rfl⟩ := Option.map_eq_some_iff.1 hread
    have hpair : Escaping [ch '\\', c'] = false := by simp [Escaping]
    have hrest := (show QuotesEscaped ([ch '\\', c'] ++ text) from hquotes).of_append hpair
    rw [escaped_cons, escape_of_escapedByte hb, ← ih (fun hmem => hfeed (by simp [hmem])) hrest hvalue']
    rfl
  | case5 c c' text hc ih =>
    intro value hfeed hquotes hread
    rw [unescape, if_neg hc] at hread
    obtain ⟨value', hvalue', rfl⟩ := Option.map_eq_some_iff.1 hread
    have hsingle : Escaping [c] = false := by simp [Escaping, hc]
    have hrest := (show QuotesEscaped ([c] ++ (c' :: text)) from hquotes).of_append hsingle
    rw [escaped_cons, hquotes.escape_head hfeed hc, ← ih (List.not_mem_of_not_mem_cons hfeed) hrest hvalue']
    rfl

section Accepting

variable {ω : Type*} [Writer ω Byte ErrorCondition] [LawfulWriter ω] [AcceptingWriter ω]

/-- What the parts of `encode_one_label` write. -/
theorem writes_labelParts (found : Found) (labelName labelValue : Bytes) :
    List.Forall₂ WritePart.Writes (labelParts found labelName labelValue : List (WritePart ω))
      [labelName, found.opening, written found.front labelValue, found.closing] := by
  have hne : ∀ r ∈ labelReplacements, r.1 ≠ [] := by decide
  have hvalue := writes_replaceAllTo (ω := ω) found.front hne labelValue
  rw [replaceFrom_label] at hvalue
  exact .cons (WritePart.writes_data labelName) (.cons (WritePart.writes_data found.opening)
    (.cons hvalue (.cons (WritePart.writes_data found.closing) .nil)))

/-- To a writer that accepts all of it, a label is written in four parts. They are the name, two quotes, and between
    them a text that has no line feed and no quote that is not escaped and from which the value is read back, if and
    only if all is found that was there. The text is then the one of which there is only one for each value. -/
theorem encodeOneLabel_exact_iff {out : ω} (hout : AcceptingWriter.Accepting out) (found : Found)
    (labelName labelValue : Bytes) :
    (∃ res out', encodeOneLabel found labelName labelValue out = some (res, out') ∧ res.err = none ∧
      Writer.output out' = Writer.output out ++
        (labelName ++ (found.opening ++ (written found.front labelValue ++ found.closing)))) ∧
    ((∃ text, List.Forall₂ WritePart.Writes (labelParts found labelName labelValue : List (WritePart ω))
          [labelName, sv "=\"", text, sv "\","] ∧
        ch '\n' ∉ text ∧ QuotesEscaped text ∧ unescape text = some labelValue) ↔ found.Intact labelValue) ∧
    (found.Intact labelValue → written found.front labelValue = escaped labelValue) ∧
    Function.Injective escaped := by
  have hparts := writes_labelParts (ω := ω) found labelName labelValue
  refine ⟨?_, ⟨?_, fun h => ?_⟩, fun h => written_eq_iff.2 h.front, fun value value' heq => ?_⟩
  · obtain ⟨out', hwrites, -, houtput⟩ := writes_writeAll hparts out hout
    exact ⟨_, out', hwrites, rfl, by simpa using houtput⟩
  · rintro ⟨text, htext, hfeed, hquotes, hread⟩
    -- What the parts write is what they write.
    have heq := WritePart.writes_unique hout htext hparts
    simp only [List.cons.injEq, true_and, and_true] at heq
    obtain ⟨hopening, hvalue, hclosing⟩ := heq
    rw [eq_escaped_of_unescape hfeed hquotes hread] at hvalue
    exact ⟨hopening.symm, hclosing.symm, written_eq_iff.1 hvalue.symm⟩
  · rw [h.opening, h.closing, written_eq_iff.2 h.front] at hparts
    exact ⟨escaped labelValue, hparts, not_mem_escaped labelValue, quotesEscaped_escaped labelValue,
      unescape_escaped labelValue⟩
  · have hvalue := unescape_escaped value
    rw [heq, unescape_escaped value'] at hvalue
    exact (Option.some_inj.1 hvalue).symm

end Accepting

/-- All is found that was there. -/
def Found.all : Found := ⟨sv "=\"", sv "\",", Util.front⟩

/-- A value with each of the bytes that are escaped. -/
theorem encodeOneLabel_exact_iff_path :
    (∃ text, List.Forall₂ WritePart.Writes (labelParts .all (sv "path") (sv "C:\\n\n\"x") : List (WritePart Sink))
          [sv "path", sv "=\"", text, sv "\","] ∧
        ch '\n' ∉ text ∧ QuotesEscaped text ∧ unescape text = some (sv "C:\\n\n\"x")) ∧
      ∃ res out', encodeOneLabel .all (sv "path") (sv "C:\\n\n\"x") Sink.empty = some (res, out') ∧
        Writer.output out' = sv "path=\"C:\\\\n\\n\\\"x\"," := by
  obtain ⟨⟨res, out', hrun, -, houtput⟩, hiff, -⟩ :=
    @encodeOneLabel_exact_iff Sink _ _ _ Sink.empty rfl .all (sv "path") (sv "C:\\n\n\"x")
  exact ⟨hiff.2 ⟨rfl, rfl, fun _ _ _ _ => rfl⟩, res, out', hrun, houtput.trans (by decide)⟩

/-- With a quote in the places of the characters, the values `a` and `b` are written as the same text, which has a
    quote that is not escaped. -/
theorem encodeOneLabel_not_exact :
    let found : Found := ⟨sv "=\"", sv "\",", fun _ => ch '"'⟩
    (encodeOneLabel found (sv "l") (sv "a") Sink.empty).map (fun r => r.2.received) = some (sv "l=\"\"\",") ∧
    (encodeOneLabel found (sv "l") (sv "b") Sink.empty).map (fun r => r.2.received) = some (sv "l=\"\"\",") ∧
    ¬QuotesEscaped (sv "\"") ∧ unescape (sv "\"") ≠ some (sv "a") := by
  refine ⟨by decide, by decide, fun h => ?_, by decide⟩
  exact absurd (h 0 rfl) (by decide)

end Cppnet.Prometheus
