import Cppnet.Http.Message
import Cppnet.Io.Readline

/-!
# Decoding HTTP/1.1

`http/http11.cpp`: reading requests and responses. A decoder reads the first line of a
message, then the lines of its headers up to an empty one, and leaves its reader to the body.

What a decoder makes of the contents of its reader is stated in terms of the lines they fall
into: `Lib.cutLine` for the first line (`readline_ready`), and `Lib.paragraph` for the headers
(`parseHeaders_ready`). There is no error at the end of the stream: what there is of a line
counts as a line, and nothing as the empty one.
-/

namespace Cppnet.Http

open Lib Io Util

/-! ## First lines -/

/-- `from_chars`, of the version's numbers. -/
def versionNumber (str : Bytes) : Except ErrorCondition UInt32 :=
  match fromChars 32 10 str with
  | .ok value => .ok (UInt32.ofNat value)
  | .error err => .error (.errc err)

/-- `parse_http_version`. -/
def parseHttpVersion (str : Bytes) : Except ErrorCondition ProtocolVersion :=
  if ¬sv "HTTP/" <+: str then .error (.errc .illegalByteSequence)
  else
    let str := str.drop (sv "HTTP/").length
    match find str (ch '.') 0 with
    | none => .error (.errc .illegalByteSequence)
    | some splitIdx => do
      let major ← versionNumber (str.take splitIdx)
      let minor ← versionNumber (str.drop (splitIdx + 1))
      .ok ⟨major, minor⟩

/-- What `parse_status_line` makes of a line. -/
def statusLine (line : Bytes) : Except ErrorCondition ClientResponse :=
  if line = [] then .error .closed
  else
    match find line (ch ' ') 0 with
    | none => .error (.errc .illegalByteSequence)
    | some versionEnd => do
      let version ← parseHttpVersion (line.take versionEnd)
      let statusStart := versionEnd + 1
      match find line (ch ' ') statusStart with
      | none => .error (.errc .illegalByteSequence)
      | some statusEnd =>
        -- a position taken for a length: more than the number, up to the reason
        let statusCode := parseStatus (substr line statusStart statusEnd)
        if statusCode = Status.none then .error (.errc .illegalByteSequence)
        else .ok { version, statusCode }

/-- What `parse_request_line` makes of the target: a path, if it is no url. -/
def requestUri (uri : Bytes) : Option Url :=
  if uri = sv "*" then some { host := sv "*" }
  else (Url.parse uri).map fun
    | .ok u => u
    | .error _ => { path := sv "/" }

/-- What `parse_request_line` makes of a line. -/
def requestLine (line : Bytes) : Option (Except ErrorCondition ServerRequest) :=
  if line = [] then some (.error .closed)
  else
    match find line (ch ' ') 0 with
    | none => some (.error (.errc .illegalByteSequence))
    | some methodEnd =>
      let method := parseMethod (line.take methodEnd)
      if method = .none then some (.error (.errc .illegalByteSequence))
      else
        let uriStart := methodEnd + 1
        match find line (ch ' ') uriStart with
        | none => some (.error (.errc .illegalByteSequence))
        | some uriEnd => (requestUri (substr line uriStart (uriEnd - uriStart))).map fun uri =>
            (parseHttpVersion (line.drop (uriEnd + 1))).map fun version => { method, version, uri }

/-! ## Headers -/

/-- What `parse_headers` adds to the headers for a line that is not empty. -/
def addLine (headers : Headers) (line : Bytes) : Headers :=
  match find line (ch ':') 0 with
  | none => headers
  | some splitIdx =>
    let key := trimString (line.take splitIdx)
    let val := trimString (line.drop (splitIdx + 1))
    (splitString val (ch ',') 0).foldl (fun headers v => headers.add key v) headers

section Model

variable {σ : Type*} [Reader σ Byte ErrorCondition]

/-- The state of the loop of `parse_headers`. -/
structure HeadersState (σ : Type*) where
  reader : BufferedReader σ
  amountRead : ℕ
  headers : Headers

/-- One turn of the loop of `parse_headers`. -/
def headersTurn (maxRead : ℕ) (s : HeadersState σ) :
    Option (Turn (HeadersState σ) (Except ErrorCondition Headers × BufferedReader σ)) :=
  if s.amountRead < maxRead then do
    let (maybeLine, reader) ← readline s.reader crlf
    match maybeLine with
    | .error err => some (.done (.error err, reader))
    | .ok nextLine =>
      if nextLine = [] then some (.done (.ok s.headers, reader))
      else some (.next ⟨reader, s.amountRead + nextLine.length, addLine s.headers nextLine⟩)
  else some (.done (.error (.errc .valueTooLarge), s.reader))

/-- `parse_headers`. -/
def parseHeaders (reader : BufferedReader σ) (maxRead : ℕ) (headers : Headers) :
    Option (Except ErrorCondition Headers × BufferedReader σ) :=
  Loop.run (headersTurn maxRead) (Reader.fuel reader + 1) ⟨reader, 0, headers⟩

/-! ## Messages -/

section Messages

variable {μ : Type*}

/-- Reads the first line of a message, and makes of it what `firstLine` does. -/
def parseFirstLine (firstLine : Bytes → Option (Except ErrorCondition μ))
    (reader : BufferedReader σ) : Option (Except ErrorCondition μ × BufferedReader σ) :=
  (readline reader crlf).bind fun (line, reader) =>
    match line with
    | .error err => some (.error err, reader)
    | .ok line => (firstLine line).map fun message => (message, reader)

/-- `parse_request_line`. -/
def parseRequestLine :
    BufferedReader σ → Option (Except ErrorCondition ServerRequest × BufferedReader σ) :=
  parseFirstLine requestLine

/-- `parse_status_line`. -/
def parseStatusLine :
    BufferedReader σ → Option (Except ErrorCondition ClientResponse × BufferedReader σ) :=
  parseFirstLine fun line => some (statusLine line)

/-- The body of a message, given its headers: what is left in the reader, in chunks, or as
    many bytes as the headers say. -/
def messageBody (headers : Headers) (reader : BufferedReader σ) : Body σ :=
  if headers.isChunked then .chunked (.new reader)
  else .limit (.new reader (headers.getContentLength.getD 0))

/-- The steps of a decoder: the first line, the headers, and what `complete` makes of both, with
    the body. An error comes with the parent of the reader, as it is left. -/
def decodeWith (parseLine : BufferedReader σ → Option (Except ErrorCondition μ × BufferedReader σ))
    (complete : μ → Headers → μ) (reader : BufferedReader σ) (maxHeaderBytes : ℕ) :
    Option (Except (ErrorCondition × σ) (μ × Body σ)) :=
  (parseLine reader).bind fun (message, reader) =>
    match message with
    | .error err => some (.error (err, reader.impl))
    | .ok message =>
      (parseHeaders reader maxHeaderBytes .empty).map fun (headers, reader) =>
        match headers with
        | .error err => .error (err, reader.impl)
        | .ok headers => .ok (complete message headers, messageBody headers reader)

/-- The host of a target without one is that of the headers. -/
def completeRequest (req : ServerRequest) (headers : Headers) : ServerRequest :=
  let req := { req with headers }
  if req.uri.host = [] then
    { req with uri := { req.uri with host := (headers.get (sv "Host")).getD [] } }
  else req

theorem completeRequest_of_host {req : ServerRequest} (h : req.uri.host ≠ []) (headers : Headers) :
    completeRequest req headers = { req with headers } :=
  if_neg h

theorem completeRequest_version (req : ServerRequest) (headers : Headers) :
    (completeRequest req headers).version = req.version := by
  rw [completeRequest]
  split_ifs <;> rfl

theorem completeRequest_headers (req : ServerRequest) (headers : Headers) :
    (completeRequest req headers).headers = headers := by
  rw [completeRequest]
  split_ifs <;> rfl

/-- `request_decode`. -/
def requestDecode :
    BufferedReader σ → ℕ → Option (Except (ErrorCondition × σ) (ServerRequest × Body σ)) :=
  decodeWith parseRequestLine completeRequest

/-- `response_decode`. -/
def responseDecode :
    BufferedReader σ → ℕ → Option (Except (ErrorCondition × σ) (ClientResponse × Body σ)) :=
  decodeWith parseStatusLine fun resp headers => { resp with headers }

end Messages

end Model

/-! ## First lines of the right form -/

/-- The version of two numerals. -/
def numeralVersion (major minor : Bytes) : ProtocolVersion :=
  ⟨UInt32.ofNat (numeralValue 10 (digits 10 major)), UInt32.ofNat (numeralValue 10 (digits 10 minor))⟩

/-- A numeral of a `std::uint32_t`. -/
structure IsNumber (s : Bytes) : Prop where
  isNumeral : IsNumeral s
  lt : numeralValue 10 (digits 10 s) < 2 ^ 32

/-- A version, with something behind it that is not a digit. -/
theorem parseHttpVersion_eq {major minor rest : Bytes} (hmajor : IsNumber major)
    (hminor : IsNumber minor) (hrest : ∀ c ∈ rest.head?, digit 10 c = none) :
    parseHttpVersion (sv "HTTP/" ++ (major ++ ch '.' :: (minor ++ rest))) =
      .ok (numeralVersion major minor) := by
  have hdot : find (major ++ ch '.' :: (minor ++ rest)) (ch '.') 0 = some major.length :=
    find_zero_eq_some _ (hmajor.isNumeral.not_mem (by decide))
  rw [parseHttpVersion, if_neg (not_not.2 (List.prefix_append _ _)), List.drop_left]
  dsimp only
  rw [hdot]
  dsimp only
  rw [List.take_left, drop_append_cons, versionNumber, versionNumber,
    fromChars_numeral hmajor.isNumeral hmajor.lt, fromChars_append hminor.isNumeral hminor.lt hrest]
  rfl

/-- A target that is a url. -/
theorem requestUri_eq {target : Bytes} {uri : Url} (h : Url.parse target = some (.ok uri)) :
    requestUri target = some uri := by
  rw [requestUri]
  split_ifs with hstar
  · -- `*` is taken for the host in both ways.
    have hparse : Url.parse (sv "*") = some (.ok { host := sv "*" }) := by decide
    rw [hstar, hparse] at h
    exact congrArg some (Except.ok.inj (Option.some.inj h))
  · rw [h]
    rfl

/-- A line with two spaces or more. -/
theorem requestLine_split {method target : Bytes} (hmethod : ch ' ' ∉ method) (htarget : ch ' ' ∉ target)
    (version : Bytes) :
    requestLine (method ++ ch ' ' :: (target ++ ch ' ' :: version)) =
      if parseMethod method = .none then some (.error (.errc .illegalByteSequence))
      else (requestUri target).map fun uri => (parseHttpVersion version).map fun version =>
        { method := parseMethod method, version, uri } := by
  have huriEnd := find_append_cons method (ch ' ') version htarget
  have hversion : (method ++ ch ' ' :: (target ++ ch ' ' :: version)).drop
      (method.length + 1 + target.length + 1) = version := by
    rw [Nat.add_assoc, ← List.drop_drop, drop_append_cons, drop_append_cons]
  rw [requestLine, if_neg (by simp), find_zero_eq_some _ hmethod]
  dsimp only
  rw [List.take_left, huriEnd]
  dsimp only
  rw [Nat.add_sub_cancel_left, substr_append_cons, List.take_left, hversion]

/-- A method, a target without a space, and a version. -/
theorem requestLine_eq {method : RequestMethod} {target version : Bytes} {uri : Url}
    {v : ProtocolVersion} (hmethod : method ≠ .none) (htarget : ch ' ' ∉ target)
    (huri : requestUri target = some uri) (hversion : parseHttpVersion version = .ok v) :
    requestLine (methodString method ++ ch ' ' :: (target ++ ch ' ' :: version)) =
      some (.ok { method, version := v, uri }) := by
  obtain ⟨hparse, hspace, -⟩ := parseMethod_methodString method
  rw [requestLine_split hspace htarget, hparse, if_neg hmethod, huri, hversion]
  rfl

/-- A version without a space, a number, and a reason. -/
theorem statusLine_eq {version number reason : Bytes} {v : ProtocolVersion} {s : Status}
    (hspace : ch ' ' ∉ version) (hversion : parseHttpVersion version = .ok v)
    (hs : StatusLine s number reason) :
    statusLine (version ++ ch ' ' :: (number ++ ch ' ' :: reason)) =
      .ok { version := v, statusCode := s } := by
  have hend := find_append_cons version (ch ' ') reason
    (hs.isNumeral.not_mem (show digit 10 (ch ' ') = none by decide))
  -- The number, a space, and some of the reason.
  obtain ⟨rest, hsub⟩ : ∃ rest, substr (version ++ ch ' ' :: (number ++ ch ' ' :: reason))
      (version.length + 1) (version.length + 1 + number.length) = number ++ ch ' ' :: rest := by
    refine ⟨reason.take version.length, ?_⟩
    rw [substr_append_cons, Nat.add_comm, List.take_length_add_append, List.take_succ_cons]
  have hstatus : parseStatus (number ++ ch ' ' :: rest) = s := by
    have hlt : numeralValue 10 (digits 10 number) < 2 ^ 32 := by
      rw [hs.value]
      exact s.toNat_lt
    have hhead : ∀ c ∈ (ch ' ' :: rest).head?, digit 10 c = none := by
      rintro c ⟨⟩
      decide
    rw [parseStatus, fromChars_append hs.isNumeral hlt hhead, hs.value]
    exact UInt32.ofNat_toNat
  rw [statusLine, if_neg (by simp), find_zero_eq_some _ hspace]
  dsimp only
  rw [List.take_left, hversion]
  change (match find _ (ch ' ') (version.length + 1) with
    | none => _
    | some statusEnd => _) = _
  rw [hend]
  dsimp only
  rw [hsub, hstatus, if_neg hs.ne_none]

/-! ## The fields of a line -/

/-- The keys and values `parse_headers` adds for a line. -/
def lineFields (line : Bytes) : List (Bytes × Bytes) :=
  match find line (ch ':') 0 with
  | none => []
  | some splitIdx => (splitString (trimString (line.drop (splitIdx + 1))) (ch ',') 0).map
      (trimString (line.take splitIdx), ·)

theorem addLine_eq (headers : Headers) (line : Bytes) :
    addLine headers line = headers.addAll (lineFields line) := by
  rw [addLine, lineFields]
  rcases find line (ch ':') 0 with _ | splitIdx
  · rfl
  · rw [KeyedMap.addAll, List.foldl_map]
    rfl

theorem foldl_addLine_eq (headers : Headers) (lines : List Bytes) :
    lines.foldl addLine headers = headers.addAll (lines.flatMap lineFields) := by
  induction lines generalizing headers with
  | nil => rfl
  | cons line lines ih =>
    rw [List.foldl_cons, ih, addLine_eq, List.flatMap_cons, KeyedMap.addAll_append]

/-- A line with no colon is skipped. -/
theorem lineFields_of_not_mem {line : Bytes} (h : ch ':' ∉ line) : lineFields line = [] := by
  rw [lineFields, find_zero_eq_none h]

/-- A line is split at its first colon, and what is behind it at the commas. -/
theorem lineFields_append {key : Bytes} (hkey : ch ':' ∉ key) (val : Bytes) :
    lineFields (key ++ ch ':' :: val) =
      ((trimString val).splitOn (ch ',')).map (trimString key, ·) := by
  rw [lineFields, find_zero_eq_some val hkey]
  dsimp only
  rw [drop_append_cons, List.take_left, splitString_eq _ _ (Nat.zero_le _), List.drop_zero]

/-! ## What the decoders make of the contents -/

/-- The length of lines, without their ends. -/
def linesLength (lines : List Bytes) : ℕ := (lines.map List.length).sum

section Ready

variable {σ : Type*} [Reader σ Byte ErrorCondition] [LawfulReader σ] [PromptReader σ]
  {r : BufferedReader σ}

omit [LawfulReader σ] [PromptReader σ] in
theorem headersTurn_of_readline {maxRead : ℕ} {s : HeadersState σ} {line : Bytes}
    {reader : BufferedReader σ} (hlt : s.amountRead < maxRead)
    (h : readline s.reader crlf = some (.ok line, reader)) :
    headersTurn maxRead s = some (if line = [] then .done (.ok s.headers, reader)
      else .next ⟨reader, s.amountRead + line.length, addLine s.headers line⟩) := by
  simp only [headersTurn, if_pos hlt, h, Option.bind_eq_bind, Option.bind_some]
  split <;> rfl

/-- The outcome of the loop of `parse_headers`, from a state with the paragraph `p` to read: the
    fields of its lines are added, unless the lines are too long. A paragraph that ends is taken
    from the reader, up to its empty line. -/
structure HeadersOutcome (maxRead : ℕ) (s : HeadersState σ) (p : List Bytes × Option Bytes)
    (q : Except ErrorCondition Headers × BufferedReader σ) : Prop where
  ready : q.2.Ready
  result : q.1 = if s.amountRead + linesLength p.1 < maxRead then .ok (p.1.foldl addLine s.headers)
    else .error (.errc .valueTooLarge)
  content : s.amountRead + linesLength p.1 < maxRead → Reader.content q.2 = p.2.getD []
  takes : s.amountRead + linesLength p.1 < maxRead → p.2.isSome → ∃ bs, Takes s.reader bs q.2

omit [LawfulReader σ] in
/-- There have been too many lines already. -/
theorem headersOutcome_of_le {maxRead : ℕ} {s : HeadersState σ} (hr : s.reader.Ready)
    (hle : maxRead ≤ s.amountRead) (p : List Bytes × Option Bytes) :
    HeadersOutcome maxRead s p (.error (.errc .valueTooLarge), s.reader) := by
  have hlong : ¬s.amountRead + linesLength p.1 < maxRead :=
    Nat.not_lt.2 (hle.trans (Nat.le_add_right _ _))
  exact ⟨hr, by rw [if_neg hlong], fun h => absurd h hlong, fun h => absurd h hlong⟩

omit [LawfulReader σ] in
/-- The first line is empty: the end of the paragraph, or that of the stream. -/
theorem headersOutcome_of_nil {maxRead : ℕ} {s : HeadersState σ} {r₁ : BufferedReader σ}
    (hlt : s.amountRead < maxRead) (hr₁ : r₁.Ready) {rest : Option Bytes}
    (hc₁ : Reader.content r₁ = rest.getD [])
    (htakes : rest.isSome → ∃ bs, Takes s.reader bs r₁) :
    HeadersOutcome maxRead s ([], rest) (.ok s.headers, r₁) := by
  refine ⟨hr₁, ?_, fun _ => hc₁, fun _ => htakes⟩
  rw [linesLength, List.map_nil, List.sum_nil, Nat.add_zero, if_pos hlt]
  rfl

omit [LawfulReader σ] in
/-- One more line before a paragraph. -/
theorem HeadersOutcome.cons {maxRead : ℕ} {s : HeadersState σ} {r₁ : BufferedReader σ}
    {line : Bytes} {p : List Bytes × Option Bytes}
    {q : Except ErrorCondition Headers × BufferedReader σ}
    (h : HeadersOutcome maxRead ⟨r₁, s.amountRead + line.length, addLine s.headers line⟩ p q)
    (htakes : p.2.isSome → Takes s.reader (line ++ crlf) r₁) :
    HeadersOutcome maxRead s (line :: p.1, p.2) q := by
  have hlen : s.amountRead + linesLength (line :: p.1) =
      s.amountRead + line.length + linesLength p.1 := by
    simp only [linesLength, List.map_cons, List.sum_cons, Nat.add_assoc]
  refine ⟨h.ready, ?_, ?_, ?_⟩
  · rw [hlen]
    exact h.result
  · rw [hlen]
    exact h.content
  · rw [hlen]
    intro hlt hsome
    obtain ⟨bs, hbs⟩ := h.takes hlt hsome
    exact ⟨_, (htakes hsome).append hbs⟩

/-- The loop of `parse_headers` reads the lines up to the first empty one, or to the end. -/
theorem headersTurn_run_ready (maxRead : ℕ) {n : ℕ} {s : HeadersState σ} (hr : s.reader.Ready)
    (hn : (Reader.content s.reader).length < n) :
    ∃ q, Loop.run (headersTurn maxRead) n s = some q ∧
      HeadersOutcome maxRead s (paragraph crlf (Reader.content s.reader)) q := by
  induction n generalizing s with
  | zero => exact absurd hn (Nat.not_lt_zero _)
  | succ n ih =>
    by_cases hlt : s.amountRead < maxRead
    case neg =>
      have hturn : headersTurn maxRead s =
          some (.done (.error (.errc .valueTooLarge), s.reader)) := by
        rw [headersTurn, if_neg hlt]
      exact ⟨_, Loop.run_succ_done hturn, headersOutcome_of_le hr (Nat.le_of_not_lt hlt) _⟩
    case pos =>
    have hcrlf := crlf_ne_nil
    obtain ⟨r₁, hline, hr₁, hc₁, htakes₁⟩ := readline_ready hr hcrlf
    have hturn := headersTurn_of_readline hlt hline
    have hlen := length_cutLine_le hcrlf (Reader.content s.reader)
    rw [paragraph_eq hcrlf]
    by_cases hnil : (cutLine crlf (Reader.content s.reader)).1 = []
    · rw [if_pos hnil] at hturn ⊢
      refine ⟨_, Loop.run_succ_done hturn, headersOutcome_of_nil hlt hr₁ ?_ fun hsome => ?_⟩
      · -- Without an end of line, an empty line is all there is.
        rw [hc₁]
        split_ifs with heol
        · rfl
        · rw [cutLine_of_no_end heol]
          rfl
      · split_ifs at hsome with heol
        · exact ⟨_, htakes₁ heol⟩
        · cases hsome
    · -- A line, then what comes behind it.
      rw [if_neg hnil] at hturn ⊢
      have hpos := List.length_pos_iff.2 hnil
      have hn₁ : (Reader.content r₁).length < n := by
        rw [hc₁]
        omega
      obtain ⟨q, hrun, hq⟩ := ih (s := ⟨r₁, _, _⟩) hr₁ hn₁
      rw [hc₁] at hq
      exact ⟨q, (Loop.run_succ_next hturn).trans hrun,
        hq.cons fun hsome => htakes₁ (isInfix_of_isSome_paragraph_cutLine hcrlf hsome)⟩

/-- `parse_headers` on a ready reader. -/
theorem parseHeaders_ready (hr : r.Ready) (maxRead : ℕ) (headers : Headers) :
    ∃ q, parseHeaders r maxRead headers = some q ∧
      HeadersOutcome maxRead ⟨r, 0, headers⟩ (paragraph crlf (Reader.content r)) q :=
  headersTurn_run_ready maxRead hr (Nat.lt_succ_of_le (BufferedReader.length_content_le_fuel r))

variable {μ : Type*}

theorem parseFirstLine_ready (hr : r.Ready) (firstLine : Bytes → Option (Except ErrorCondition μ)) :
    ∃ r₁, parseFirstLine firstLine r =
        (firstLine (cutLine crlf (Reader.content r)).1).map (·, r₁) ∧
      r₁.Ready ∧ Reader.content r₁ = (cutLine crlf (Reader.content r)).2 ∧
      (crlf <:+: Reader.content r →
        Takes r ((cutLine crlf (Reader.content r)).1 ++ crlf) r₁) := by
  obtain ⟨r₁, hline, h⟩ := readline_ready hr crlf_ne_nil
  refine ⟨r₁, ?_, h⟩
  rw [parseFirstLine]
  exact congrArg (Option.bind · _) hline

/-- The headers of a message: the fields of the lines behind the first one. -/
def messageHeaders (lines : List Bytes) : Headers := .addAll .empty (lines.flatMap lineFields)

section Decoders

variable (firstLine : Bytes → Option (Except ErrorCondition μ)) (complete : μ → Headers → μ)
  (maxHeaderBytes : ℕ)

/-- The process terminates while reading the first line. -/
theorem decodeWith_none (hr : r.Ready)
    (hline : firstLine (cutLine crlf (Reader.content r)).1 = none) :
    decodeWith (parseFirstLine firstLine) complete r maxHeaderBytes = none := by
  obtain ⟨r₁, h₁, -⟩ := parseFirstLine_ready hr firstLine
  rw [decodeWith, h₁, hline]
  rfl

/-- The first line is in error. -/
theorem decodeWith_error (hr : r.Ready) {err : ErrorCondition}
    (hline : firstLine (cutLine crlf (Reader.content r)).1 = some (.error err)) :
    ∃ conn, decodeWith (parseFirstLine firstLine) complete r maxHeaderBytes =
      some (.error (err, conn)) := by
  obtain ⟨r₁, h₁, -⟩ := parseFirstLine_ready hr firstLine
  rw [decodeWith, h₁, hline]
  exact ⟨_, rfl⟩

variable {message : μ}

/-- The headers are too long. -/
theorem decodeWith_tooLarge (hr : r.Ready)
    (hline : firstLine (cutLine crlf (Reader.content r)).1 = some (.ok message))
    (hlong : maxHeaderBytes ≤
      linesLength (paragraph crlf (cutLine crlf (Reader.content r)).2).1) :
    ∃ conn, decodeWith (parseFirstLine firstLine) complete r maxHeaderBytes =
      some (.error (.errc .valueTooLarge, conn)) := by
  obtain ⟨r₁, h₁, hr₁, hc₁, -⟩ := parseFirstLine_ready hr firstLine
  obtain ⟨⟨headers, r₂⟩, h₂, hout⟩ := parseHeaders_ready hr₁ maxHeaderBytes .empty
  have hresult := hout.result
  rw [if_neg (by rw [Nat.zero_add, hc₁]; exact Nat.not_lt.2 hlong)] at hresult
  rw [decodeWith, h₁, hline]
  change ∃ conn, Option.map _ (parseHeaders r₁ maxHeaderBytes .empty) = _
  rw [h₂, Option.map_some]
  dsimp only at hresult ⊢
  rw [hresult]
  exact ⟨_, rfl⟩

/-- The message is decoded, and its body starts behind the empty line. -/
theorem decodeWith_ok (hr : r.Ready)
    (hline : firstLine (cutLine crlf (Reader.content r)).1 = some (.ok message))
    (hlen : linesLength (paragraph crlf (cutLine crlf (Reader.content r)).2).1 <
      maxHeaderBytes) :
    ∃ r', r'.Ready ∧
      Reader.content r' = (paragraph crlf (cutLine crlf (Reader.content r)).2).2.getD [] ∧
      ((paragraph crlf (cutLine crlf (Reader.content r)).2).2.isSome → ∃ bs, Takes r bs r') ∧
      decodeWith (parseFirstLine firstLine) complete r maxHeaderBytes = some (.ok
        (complete message (messageHeaders (paragraph crlf (cutLine crlf (Reader.content r)).2).1),
          messageBody (messageHeaders (paragraph crlf (cutLine crlf (Reader.content r)).2).1)
            r')) := by
  obtain ⟨r₁, h₁, hr₁, hc₁, htakes₁⟩ := parseFirstLine_ready hr firstLine
  obtain ⟨⟨headers, r₂⟩, h₂, hout⟩ := parseHeaders_ready hr₁ maxHeaderBytes .empty
  rw [hc₁] at hout
  have hlt : 0 + linesLength (paragraph crlf (cutLine crlf (Reader.content r)).2).1 <
      maxHeaderBytes := by
    rwa [Nat.zero_add]
  have hresult := hout.result
  rw [if_pos hlt, foldl_addLine_eq] at hresult
  refine ⟨r₂, hout.ready, hout.content hlt, fun hsome => ?_, ?_⟩
  · -- The first line has ended, as there is an empty line behind it.
    obtain ⟨bs, htakes⟩ := hout.takes hlt hsome
    have hcrlf := isInfix_of_isSome_paragraph_cutLine crlf_ne_nil hsome
    exact ⟨_, (htakes₁ hcrlf).append htakes⟩
  · rw [decodeWith, h₁, hline]
    change Option.map _ (parseHeaders r₁ maxHeaderBytes .empty) = _
    rw [h₂, Option.map_some]
    dsimp only at hresult ⊢
    rw [hresult]
    rfl

/-- A message, all lines of which have ended, is decoded whatever is behind it. -/
theorem decodeWith_text (hr : r.Ready) {first rest : Bytes} {lines : List Bytes}
    (hc : Reader.content r = first ++ crlf ++ (lines.flatMap (· ++ crlf) ++ (crlf ++ rest)))
    (hfirst : IsLine crlf first) (hlines : ∀ l ∈ lines, IsLine crlf l ∧ l ≠ [])
    (hline : firstLine first = some (.ok message)) (hlen : linesLength lines < maxHeaderBytes) :
    ∃ r', r'.Ready ∧ Reader.content r' = rest ∧ (∃ bs, Takes r bs r') ∧
      decodeWith (parseFirstLine firstLine) complete r maxHeaderBytes = some (.ok
        (complete message (messageHeaders lines), messageBody (messageHeaders lines) r')) := by
  have hcut := cutLine_append hfirst (lines.flatMap (· ++ crlf) ++ (crlf ++ rest))
  have hpar := paragraph_lines crlf_ne_nil hlines rest
  rw [← hc] at hcut
  obtain ⟨r', hr', hc', htakes, hok⟩ := decodeWith_ok firstLine complete maxHeaderBytes hr
    (by rw [hcut]; exact hline) (by rw [hcut, hpar]; exact hlen)
  rw [hcut, hpar] at hc' htakes hok
  exact ⟨r', hr', hc', htakes rfl, hok⟩

end Decoders

end Ready

end Cppnet.Http
