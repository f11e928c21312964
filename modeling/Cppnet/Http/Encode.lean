import Cppnet.Http.Message

/-!
# Encoding HTTP/1.1

`http/http11.cpp`: writing requests and responses. An encoder makes one write after the
other, and stops at the first error; on a writer that accepts every write in full, what it
writes is the text of the message (`writeEach_wrote`).

The maps of headers and of query parameters are iterated in an order of their own: the
encoders are given it, as the list of the entries in that order.

`writer::write(char)` returns a task that writes a span of its parameter, and does not begin before the
parameter is gone. Which byte is then found in its place is not specified; the encoder of requests, which
writes a space in this way, is given that byte.
-/

namespace Cppnet.Http

open Lib Io

section Model

variable {ω : Type*} [Writer ω Byte ErrorCondition]

/-- One write after the other, up to the first error. -/
def writeEach (writer : ω) : List Bytes → Option (Option ErrorCondition × ω)
  | [] => some (none, writer)
  | part :: parts => do
    let (res, writer) ← Writer.write writer part
    if res.err.isSome then some (res.err, writer) else writeEach writer parts

/-- The writes for one key of the headers. -/
def headerParts (header : Bytes × List Bytes) : List Bytes :=
  [header.1, sv ": "] ++
    (match header.2 with
      | [] => []
      | front :: values => front :: values.flatMap fun value => [sv ", ", value]) ++ [crlf]

/-- `write_headers`. -/
def writeHeaders (writer : ω) (headers : List (Bytes × List Bytes)) :
    Option (Option ErrorCondition × ω) :=
  writeEach writer (headers.flatMap headerParts)

/-- The four characters of a version, with the space behind it. -/
def versionBuf (version : ProtocolVersion) : Bytes :=
  [(version.major + 48).toUInt8, ch '.', (version.minor + 48).toUInt8, ch ' ']

/-- The version a request is sent with: 1.0 in place of 0.0. -/
def requestVersion (version : ProtocolVersion) : ProtocolVersion :=
  if version.major = 0 ∧ version.minor = 0 then ⟨1, 0⟩ else version

/-- The writes of `request_encode`. Behind the method it calls `write(' ')`, where `found` is what is found of the
    space. -/
def requestParts (found : Byte) (req : ClientRequest) (query headers : List (Bytes × List Bytes)) : List Bytes :=
  [methodString req.method, [found], req.uri.build query, sv " HTTP/",
    versionBuf (requestVersion req.version), crlf] ++ headers.flatMap headerParts ++ [crlf]

/-- `request_encode`. -/
def requestEncode (writer : ω) (found : Byte) (req : ClientRequest) (query headers : List (Bytes × List Bytes)) :
    Option (Option ErrorCondition × ω) :=
  writeEach writer (requestParts found req query headers)

/-- The writes of `response_encode`. -/
def responseParts (resp : ServerResponse) (headers : List (Bytes × List Bytes)) : List Bytes :=
  [sv "HTTP/", versionBuf resp.version, statusText resp.statusCode, crlf] ++
    headers.flatMap headerParts ++ [crlf]

/-- `response_encode`. -/
def responseEncode (writer : ω) (resp : ServerResponse) (headers : List (Bytes × List Bytes)) :
    Option (Option ErrorCondition × ω) :=
  writeEach writer (responseParts resp headers)

/-- A writer that accepts every write in full gets all of them. -/
theorem writeEach_wrote {writer writer' : ω} {parts : List Bytes}
    (h : Wrote writer parts writer') : writeEach writer parts = some (none, writer') := by
  induction h with
  | nil => rfl
  | cons hw _ ih =>
    simp only [writeEach, hw, Option.bind_eq_bind, Option.bind_some, Option.isSome_none]
    exact ih

end Model

/-- Writing to a sink that accepts every write in full leaves the text of the parts in it. -/
theorem writeEach_received (parts : List Bytes) :
    ∃ sink, writeEach Sink.empty parts = some (none, sink) ∧ sink.received = parts.flatten := by
  obtain ⟨sink, hwrote, -⟩ := AcceptingWriter.wrote (s := Sink.empty) rfl parts
  exact ⟨sink, writeEach_wrote hwrote, hwrote.output_eq⟩

/-! ## Texts -/

/-- The values of a key, as they are written. -/
def joinValues (values : List Bytes) : Bytes := (sv ", ").intercalate values

/-- The line of a key of the headers. -/
def headerLine (header : Bytes × List Bytes) : Bytes :=
  header.1 ++ sv ": " ++ joinValues header.2

/-- The writes for a key of the headers are its line, and the end of it. -/
theorem flatten_headerParts (header : Bytes × List Bytes) :
    (headerParts header).flatten = headerLine header ++ crlf := by
  obtain ⟨key, values⟩ := header
  have hjoin : ∀ (front : Bytes) (vs : List Bytes),
      (front :: vs.flatMap fun value => [sv ", ", value]).flatten = joinValues (front :: vs) := by
    intro front vs
    induction vs generalizing front with
    | nil => simp [joinValues]
    | cons v vs ih =>
      have h := ih v
      simp only [joinValues, List.intercalate_cons_cons, List.flatMap_cons, List.flatten_cons,
        List.cons_append, List.nil_append] at h ⊢
      rw [h]
      simp
  rcases values with _ | ⟨front, vs⟩
  · simp [headerParts, headerLine, joinValues]
  · simp only [headerParts, headerLine, List.flatten_append, hjoin]
    simp

/-- The text of the headers. -/
def headersText (headers : List (Bytes × List Bytes)) : Bytes :=
  (headers.map headerLine).flatMap (· ++ crlf)

theorem flatten_flatMap_headerParts (headers : List (Bytes × List Bytes)) :
    (headers.flatMap headerParts).flatten = headersText headers := by
  induction headers with
  | nil => rfl
  | cons header headers ih =>
    rw [List.flatMap_cons, List.flatten_append, flatten_headerParts, ih, headersText, headersText,
      List.map_cons, List.flatMap_cons]

/-- The first line of a request, with a space at the end. -/
def requestFirst (found : Byte) (req : ClientRequest) (query : List (Bytes × List Bytes)) : Bytes :=
  methodString req.method ++ found :: (req.uri.build query ++ ch ' ' :: (sv "HTTP/" ++
    ((versionBuf (requestVersion req.version)).take 3 ++ [ch ' '])))

/-- The text of a request: its first line, and its headers. -/
theorem flatten_requestParts (found : Byte) (req : ClientRequest) (query headers : List (Bytes × List Bytes)) :
    (requestParts found req query headers).flatten =
      requestFirst found req query ++ crlf ++ (headersText headers ++ crlf) := by
  rw [requestParts, requestFirst, List.flatten_append, List.flatten_append, flatten_flatMap_headerParts]
  simp [versionBuf, sv]

/-- The text of a response: its first line, and its headers. -/
theorem flatten_responseParts (resp : ServerResponse) (headers : List (Bytes × List Bytes)) :
    (responseParts resp headers).flatten =
      sv "HTTP/" ++ (versionBuf resp.version).take 3 ++ ch ' ' :: statusText resp.statusCode ++
        crlf ++ (headersText headers ++ crlf) := by
  rw [responseParts, List.flatten_append, List.flatten_append, flatten_flatMap_headerParts]
  simp [versionBuf]

end Cppnet.Http
