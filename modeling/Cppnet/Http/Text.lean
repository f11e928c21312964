import Cppnet.Http.Decode

/-!
# Texts of messages

Texts of requests (`RequestText`) and of responses (`ResponseText`), and what the decoders make of
them, whatever the capacity of their reader and however the text comes in: the message the text
is of, and a reader left at what is behind it (`RequestText.decode`, `ResponseText.decode`). If the
headers give a length (`FieldsText.HasLength`), that is the limit of the body.
-/

namespace Cppnet.Http

open Lib Io Util

/-! ## Headers -/

/-- The text of headers: lines, each a key, a colon, a space and a value. -/
structure FieldsText where
  fields : List (Bytes × Bytes)
  fields_colon : ∀ f ∈ fields, ch ':' ∉ f.1
  fields_crlf : ∀ f ∈ fields, ¬crlf <:+: f.1 ++ sv ": " ++ f.2

namespace FieldsText

theorem nil_colon : ∀ f ∈ ([] : List (Bytes × Bytes)), ch ':' ∉ f.1 := List.forall_mem_nil _

theorem nil_crlf : ∀ f ∈ ([] : List (Bytes × Bytes)), ¬crlf <:+: f.1 ++ sv ": " ++ f.2 := List.forall_mem_nil _

variable (t : FieldsText)

/-- The lines of the headers. -/
def lines : List Bytes := t.fields.map fun f => f.1 ++ sv ": " ++ f.2

/-- The text of a message with the given first line, up to the empty line and with it. -/
def textOf (firstLine : Bytes) : Bytes := firstLine ++ crlf ++ (t.lines.flatMap (· ++ crlf) ++ crlf)

theorem lines_ok : ∀ l ∈ t.lines, IsLine crlf l ∧ l ≠ [] := by
  intro l hl
  obtain ⟨f, hf, rfl⟩ := List.mem_map.1 hl
  exact ⟨isLine_crlf (t.fields_crlf f hf), by simp [sv]⟩

/-- The fields of the headers of a key. -/
def fieldsOf (key : Bytes) : List (Bytes × Bytes) :=
  t.fields.filter fun f => lower (trimString f.1) = lower key

/-- A text with one `Content-Length`, the decimal numeral of `n`, and no `Transfer-Encoding`. -/
structure HasLength (n : ℕ) : Prop where
  contentLength : (t.fieldsOf (sv "Content-Length")).map Prod.snd = [toString n]
  transferEncoding : t.fieldsOf (sv "Transfer-Encoding") = []

/-- The values of a key in lines of headers are those of its fields. -/
theorem filter_lineFields {fields : List (Bytes × Bytes)} (hcolon : ∀ f ∈ fields, ch ':' ∉ f.1)
    (key : Bytes) :
    (((fields.map fun f => f.1 ++ sv ": " ++ f.2).flatMap lineFields).filter
        fun kv => lower kv.1 = lower key) =
      (fields.filter fun f => lower (trimString f.1) = lower key).flatMap fun f =>
        ((trimString (ch ' ' :: f.2)).splitOn (ch ',')).map (trimString f.1, ·) := by
  induction fields with
  | nil => rfl
  | cons f fields ih =>
    have hline : f.1 ++ sv ": " ++ f.2 = f.1 ++ ch ':' :: (ch ' ' :: f.2) := by
      rw [List.append_assoc]
      rfl
    rw [List.map_cons, List.flatMap_cons, List.filter_append,
      ih fun f' hf' => hcolon f' (List.mem_cons_of_mem f hf'), hline,
      lineFields_append (hcolon f List.mem_cons_self)]
    by_cases hkey : lower (trimString f.1) = lower key
    · rw [List.filter_cons_of_pos (by simpa using hkey), List.flatMap_cons]
      simp [hkey]
    · rw [List.filter_cons_of_neg (by simpa using hkey)]
      simp [hkey]

theorem find?_messageHeaders (key : Bytes) :
    (messageHeaders t.lines).find? key =
      if t.fieldsOf key = [] then none
      else some ((t.fieldsOf key).flatMap fun f =>
        (trimString (ch ' ' :: f.2)).splitOn (ch ',')) := by
  rw [messageHeaders, KeyedMap.find?_addAll, lines, filter_lineFields t.fields_colon, ← fieldsOf]
  rcases t.fieldsOf key with _ | ⟨f, fields⟩
  · rfl
  · have hne : ((trimString (ch ' ' :: f.2)).splitOn (ch ',')).map (trimString f.1, ·) ≠ [] :=
      fun h => List.splitOn_ne_nil _ _ (List.map_eq_nil_iff.1 h)
    rw [if_neg (List.cons_ne_nil _ _), if_neg, List.map_flatMap]
    · simp [KeyedMap.find?, KeyedMap.empty, Function.comp_def]
    · rw [List.flatMap_cons]
      exact List.append_ne_nil_of_left_ne_nil hne _

variable {t}

theorem HasLength.getContentLength {n : ℕ} (h : t.HasLength n) (hn : n < 2 ^ 64) :
    (messageHeaders t.lines).getContentLength = some n := by
  obtain ⟨f, hf, hval⟩ := List.map_eq_singleton_iff.1 h.contentLength
  have hnum := isNumeral_toString n
  have hfind : (messageHeaders t.lines).find? (sv "Content-Length") = some [toString n] := by
    rw [find?_messageHeaders, hf, if_neg (List.cons_ne_nil _ _), List.flatMap_singleton, hval,
      trimString_space hnum.1 (trimmed_of_isNumeral hnum),
      List.splitOn_eq_singleton (hnum.not_mem (by decide))]
  exact Headers.getContentLength_eq hn hfind

theorem HasLength.isChunked {n : ℕ} (h : t.HasLength n) :
    (messageHeaders t.lines).isChunked = false := by
  refine Headers.isChunked_eq_false ?_
  rw [find?_messageHeaders, if_pos h.transferEncoding]

/-- The body of a text with a length. -/
theorem HasLength.messageBody {σ : Type*} [Reader σ Byte ErrorCondition] {n : ℕ}
    (h : t.HasLength n) (hn : n < 2 ^ 64) (r : BufferedReader σ) :
    messageBody (messageHeaders t.lines) r = .limit (.new r n) := by
  rw [Http.messageBody, h.isChunked, h.getContentLength hn]
  rfl

/-- A text without a body: with no `Content-Length` other than 0, and no `Transfer-Encoding`. -/
structure NoBody (t : FieldsText) : Prop where
  contentLength : ∀ f ∈ t.fieldsOf (sv "Content-Length"), f.2 = toString 0
  transferEncoding : t.fieldsOf (sv "Transfer-Encoding") = []

/-- The body of a text without one is empty. -/
theorem NoBody.messageBody {σ : Type*} [Reader σ Byte ErrorCondition] (h : t.NoBody)
    (r : BufferedReader σ) : messageBody (messageHeaders t.lines) r = .limit (.new r 0) := by
  have hchunked : (messageHeaders t.lines).isChunked = false := by
    refine Headers.isChunked_eq_false ?_
    rw [find?_messageHeaders, if_pos h.transferEncoding]
  have hlength : (messageHeaders t.lines).getContentLength.getD 0 = 0 := by
    have hfind := t.find?_messageHeaders (sv "Content-Length")
    rcases hfields : t.fieldsOf (sv "Content-Length") with _ | ⟨f, fields⟩
    · rw [hfields, if_pos rfl] at hfind
      rw [Headers.getContentLength, Headers.get, hfind]
      rfl
    · have hf := h.contentLength f (hfields ▸ List.mem_cons_self)
      have hval : (trimString (ch ' ' :: f.2)).splitOn (ch ',') = [toString 0] := by
        rw [hf]
        decide
      rw [hfields, if_neg (List.cons_ne_nil _ _), List.flatMap_cons, hval] at hfind
      rw [Headers.getContentLength_eq (by decide) hfind]
      rfl
  rw [Http.messageBody, hchunked, hlength]
  rfl

/-- A text with `chunked` among the codings of a `Transfer-Encoding`. -/
def IsChunked (t : FieldsText) : Prop :=
  ∃ f ∈ t.fieldsOf (sv "Transfer-Encoding"),
    ∃ coding ∈ (trimString (ch ' ' :: f.2)).splitOn (ch ','),
      lower (trimString coding) = sv "chunked"

/-- The body of a chunked text is all that is behind it, in chunks. -/
theorem IsChunked.messageBody {σ : Type*} [Reader σ Byte ErrorCondition] (h : t.IsChunked)
    (r : BufferedReader σ) : messageBody (messageHeaders t.lines) r = .chunked (.new r) := by
  obtain ⟨f, hf, coding, hcoding, hlower⟩ := h
  have hchunked : (messageHeaders t.lines).isChunked = true := by
    rw [Headers.isChunked, Headers.getTransferEncoding, Headers.getAll, find?_messageHeaders,
      if_neg (List.ne_nil_of_mem hf), Option.map_some, Option.getD_some, List.any_eq_true]
    refine ⟨coding, List.mem_flatMap.2 ⟨f, hf, hcoding⟩, equalIgnoreCase_iff.2 ?_⟩
    rw [hlower]
    decide
  rw [Http.messageBody, hchunked]
  rfl

end FieldsText

/-- `decodeWith_text`, for the text of a message. -/
theorem decodeWith_textOf {σ μ : Type*} [Reader σ Byte ErrorCondition] [LawfulReader σ]
    [PromptReader σ] (t : FieldsText) (firstLine : Bytes → Option (Except ErrorCondition μ))
    (complete : μ → Headers → μ) {r : BufferedReader σ} (hr : r.Ready) {first rest : Bytes}
    {message : μ} (hc : Reader.content r = t.textOf first ++ rest) (hfirst : IsLine crlf first)
    (hline : firstLine first = some (.ok message)) {maxHeaderBytes : ℕ}
    (hlen : linesLength t.lines < maxHeaderBytes) :
    ∃ r', r'.Ready ∧ Reader.content r' = rest ∧ (∃ bs, Takes r bs r') ∧
      decodeWith (parseFirstLine firstLine) complete r maxHeaderBytes =
        some (.ok (complete message (messageHeaders t.lines),
          messageBody (messageHeaders t.lines) r')) := by
  refine decodeWith_text firstLine complete maxHeaderBytes hr ?_ hfirst t.lines_ok hline hlen
  rw [hc, FieldsText.textOf]
  simp only [List.append_assoc]

/-! ## Requests -/

theorem isNumber_one : IsNumber (sv "1") := ⟨by decide, by decide⟩

/-- The text of a request. -/
structure RequestText extends FieldsText where
  method : RequestMethod
  target : Bytes
  uri : Url
  major : Bytes
  minor : Bytes
  method_ne_none : method ≠ .none
  target_space : ch ' ' ∉ target
  target_crlf : ¬crlf <:+: target
  target_uri : Url.parse target = some (.ok uri)
  major_isNumber : IsNumber major
  minor_isNumber : IsNumber minor

namespace RequestText

variable (t : RequestText)

/-- The request line. -/
def firstLine : Bytes :=
  methodString t.method ++ ch ' ' :: (t.target ++ ch ' ' ::
    (sv "HTTP/" ++ (t.major ++ ch '.' :: t.minor)))

/-- The text, up to the empty line and with it. -/
def text : Bytes := t.textOf t.firstLine

/-- The request of the text. -/
def request : ServerRequest :=
  completeRequest
    { method := t.method, version := numeralVersion t.major t.minor, uri := t.uri }
    (messageHeaders t.lines)

theorem isLine_firstLine : IsLine crlf t.firstLine := by
  have hmethod : 10 ∉ methodString t.method := (parseMethod_methodString t.method).2.2
  have hversion : 10 ∉ sv "HTTP/" ++ (t.major ++ ch '.' :: t.minor) := by
    simp only [List.mem_append, List.mem_cons, not_or]
    exact ⟨by decide, t.major_isNumber.isNumeral.not_mem (by decide), by decide,
      t.minor_isNumber.isNumeral.not_mem (by decide)⟩
  have hrest : 10 ∉ ch ' ' :: (sv "HTTP/" ++ (t.major ++ ch '.' :: t.minor)) :=
    List.not_mem_cons_of_ne_of_not_mem (by decide) hversion
  refine isLine_crlf fun h => ?_
  -- The only part that may have a line feed is the target, and it is between spaces.
  rw [firstLine, ← List.singleton_append, ← List.append_assoc, crlf_append_iff] at h
  rcases h with h | h | ⟨h, -⟩
  · refine not_crlf_of_not_mem ?_ h
    rw [List.mem_append, not_or]
    exact ⟨hmethod, by decide⟩
  · rcases crlf_append_iff.1 h with h | h | ⟨-, h⟩
    · exact t.target_crlf h
    · exact not_crlf_of_not_mem hrest h
    · exact absurd (List.cons_prefix_cons.1 h).1 (by decide)
  · exact absurd (List.singleton_suffix_append_singleton_iff.1 h) (by decide)

theorem requestLine_firstLine : requestLine t.firstLine = some (.ok
    { method := t.method, version := numeralVersion t.major t.minor, uri := t.uri }) := by
  have hend : ∀ c ∈ ([] : Bytes).head?, digit 10 c = none := by simp
  have hversion := parseHttpVersion_eq t.major_isNumber t.minor_isNumber hend
  rw [List.append_nil] at hversion
  exact requestLine_eq t.method_ne_none t.target_space (requestUri_eq t.target_uri) hversion

/-- `request_decode` of the text of a request, whatever is behind it. -/
theorem decode {σ : Type*} [Reader σ Byte ErrorCondition] [LawfulReader σ] [PromptReader σ]
    {r : BufferedReader σ} (hr : r.Ready) {rest : Bytes}
    (hc : Reader.content r = t.text ++ rest) {maxHeaderBytes : ℕ}
    (hlen : linesLength t.lines < maxHeaderBytes) :
    ∃ r', r'.Ready ∧ Reader.content r' = rest ∧ (∃ bs, Takes r bs r') ∧
      requestDecode r maxHeaderBytes =
        some (.ok (t.request, messageBody (messageHeaders t.lines) r')) :=
  decodeWith_textOf t.toFieldsText requestLine completeRequest hr hc t.isLine_firstLine
    t.requestLine_firstLine hlen

end RequestText

/-! ## Responses -/

/-- The text of a response. -/
structure ResponseText extends FieldsText where
  major : Bytes
  minor : Bytes
  status : Status
  number : Bytes
  reason : Bytes
  major_isNumber : IsNumber major
  minor_isNumber : IsNumber minor
  statusLine : StatusLine status number reason

namespace ResponseText

variable (t : ResponseText)

/-- The status line. -/
def firstLine : Bytes :=
  sv "HTTP/" ++ (t.major ++ ch '.' :: t.minor) ++ ch ' ' :: (t.number ++ ch ' ' :: t.reason)

/-- The text, up to the empty line and with it. -/
def text : Bytes := t.textOf t.firstLine

/-- The response of the text. -/
def response : ClientResponse :=
  { version := numeralVersion t.major t.minor, statusCode := t.status,
    headers := messageHeaders t.lines }

theorem not_mem_version {c : Byte} (hc : digit 10 c = none) (hname : c ∉ sv "HTTP/.") :
    c ∉ sv "HTTP/" ++ (t.major ++ ch '.' :: t.minor) := by
  have hsub : ∀ d ∈ sv "HTTP/", d ∈ sv "HTTP/." := by decide
  simp only [List.mem_append, List.mem_cons, not_or]
  exact ⟨fun h => hname (hsub c h), t.major_isNumber.isNumeral.not_mem hc,
    fun h => hname (h ▸ by decide), t.minor_isNumber.isNumeral.not_mem hc⟩

theorem isLine_firstLine : IsLine crlf t.firstLine := by
  refine isLine_crlf (not_crlf_of_not_mem ?_)
  have hstatus : 10 ∉ t.number ++ ch ' ' :: t.reason := by
    rw [List.mem_append, List.mem_cons, not_or, not_or]
    exact ⟨t.statusLine.isNumeral.not_mem (by decide), by decide, t.statusLine.reason⟩
  intro h
  rcases List.mem_append.1 h with h | h
  · exact t.not_mem_version (by decide) (by decide) h
  · exact List.not_mem_cons_of_ne_of_not_mem (by decide) hstatus h

theorem statusLine_firstLine : Http.statusLine t.firstLine =
    .ok { version := numeralVersion t.major t.minor, statusCode := t.status } := by
  have hend : ∀ c ∈ ([] : Bytes).head?, digit 10 c = none := by simp
  have hversion := parseHttpVersion_eq t.major_isNumber t.minor_isNumber hend
  rw [List.append_nil] at hversion
  exact statusLine_eq (t.not_mem_version (by decide) (by decide)) hversion t.statusLine

/-- `response_decode` of the text of a response, whatever is behind it. -/
theorem decode {σ : Type*} [Reader σ Byte ErrorCondition] [LawfulReader σ] [PromptReader σ]
    {r : BufferedReader σ} (hr : r.Ready) {rest : Bytes}
    (hc : Reader.content r = t.text ++ rest) {maxHeaderBytes : ℕ}
    (hlen : linesLength t.lines < maxHeaderBytes) :
    ∃ r', r'.Ready ∧ Reader.content r' = rest ∧ (∃ bs, Takes r bs r') ∧
      responseDecode r maxHeaderBytes =
        some (.ok (t.response, messageBody (messageHeaders t.lines) r')) :=
  decodeWith_textOf t.toFieldsText (fun line => some (Http.statusLine line))
    (fun resp headers => { resp with headers }) hr hc t.isLine_firstLine
    (congrArg some t.statusLine_firstLine) hlen

end ResponseText

end Cppnet.Http
