import Cppnet.Http.Decode
import Cppnet.Http.Encode
import Cppnet.Io.BufferedWriter

/-!
# `server`

`http/server.cpp`: the loop of `serve_connection`, decoding one request after the other and
answering it. Every turn has a buffered reader and a buffered writer of its own on the socket: when
the turn is over, they are gone, with what is in their buffers.

The loop is modelled while the server keeps serving and its connection stays valid, for requests in
HTTP/1.1, the only version with a decoder. Handlers are code of the user. All they can do to the
connection is to read from the body of the request, and to write to the response
(`Server.handler_reads`).
-/

namespace Cppnet.Http

open Lib Io

/-! ## Responses -/

/-- The values of `response_encoder`. -/
inductive ResponseEncoder
  | http11
  | http2
  deriving DecidableEq, Repr

/-- `response_writer`. -/
structure ResponseWriter (ω : Type*) where
  writer : BufferedWriter ω
  resp : ServerResponse
  encode : ResponseEncoder

/-- The order in which the headers are iterated. -/
structure Iteration where
  order : Headers → List (Bytes × List Bytes)
  perm : ∀ headers, (order headers).Perm headers.entries

section Model

variable {σ ω : Type*} [Reader σ Byte ErrorCondition] [Writer ω Byte ErrorCondition]

/-- `response_writer::send`. What it throws on an error is no `std::exception`, and not caught. The
    encoder for HTTP/2 has no result. -/
def ResponseWriter.send (iteration : Iteration) (rw : ResponseWriter ω) (statusCode : Status)
    (contentLength : ℕ) : Option (ResponseWriter ω) :=
  let resp := { rw.resp with
    statusCode, headers := rw.resp.headers.setContentLength contentLength }
  match rw.encode with
  | .http11 =>
    (responseEncode rw.writer resp (iteration.order resp.headers)).bind fun (err, writer) =>
      if err.isSome then none else some { rw with writer, resp }
  | .http2 => none

/-! ## The loop -/

/-- `server`, with what its `router` does to a request. -/
structure Server (σ ω : Type*) [Reader σ Byte ErrorCondition] where
  maxHeaderBytes : ℕ
  iteration : Iteration
  handler : ServerRequest → Body σ → ResponseWriter ω → Option (Body σ × ResponseWriter ω)
  handler_reads : ∀ {req body rw body' rw'}, handler req body rw = some (body', rw') →
    ∃ ds out, body.reads ds = some (out, body')

/-- `is_protocol_supported`. -/
def isProtocolSupported (protocol : Bytes) : Bool := protocol = sv "HTTP/1.1"

/-- `upgrade_to_protocol`. -/
def upgradeToProtocol (req : ServerRequest) : Bytes :=
  match req.headers.getAll (sv "Upgrade") with
  | none => []
  | some upgrade => (upgrade.find? isProtocolSupported).getD []

/-- The encoder for a version: that for HTTP/1.1, but for HTTP/2. -/
def responseEncoder (version : ProtocolVersion) : ResponseEncoder :=
  if version.major = 2 then .http2 else .http11

/-- What `serve_connection` does to answer a request: the body and the writer after it. -/
def Server.respond (srv : Server σ ω) (req : ServerRequest) (body : Body σ)
    (writer : BufferedWriter ω) : Option (Body σ × ResponseWriter ω) :=
  let unsupported := req.version.major ≠ 1 ∧ req.version.major ≠ 2
  let rw : ResponseWriter ω := ⟨writer, { version := req.version }, responseEncoder req.version⟩
  let upgradeTo := upgradeToProtocol req
  if unsupported then
    (rw.send srv.iteration Status.httpVersionNotSupported 0).map (body, ·)
  else if upgradeTo ≠ [] then
    let headers := (rw.resp.headers.set (sv "Upgrade") upgradeTo).set (sv "Connection")
      (sv "upgrade")
    let rw := { rw with resp := { rw.resp with headers } }
    (rw.send srv.iteration Status.switchingProtocols 0).map (body, ·)
  else srv.handler req body rw

/-- The state of the loop of `serve_connection`, with the requests decoded so far. -/
structure Serving (σ ω : Type*) where
  conn : Conn σ ω
  requests : List ServerRequest

/-- One turn of the loop of `serve_connection`. It leaves the loop with the error of the decoder. -/
def Server.serveTurn (srv : Server σ ω) (s : Serving σ ω) :
    Option (Turn (Serving σ ω) (ErrorCondition × Serving σ ω)) :=
  let reader := BufferedReader.new s.conn.input BufferedReader.defaultBufsize
  let writer := BufferedWriter.new s.conn.output BufferedWriter.defaultBufsize
  (requestDecode reader srv.maxHeaderBytes).bind fun reqResult =>
    match reqResult with
    | .error (err, input) => some (.done (err, { s with conn := { s.conn with input } }))
    | .ok (req, body) =>
      (srv.respond req body writer).bind fun (body, rw) =>
        rw.writer.flush.map fun (_, writer) =>
          .next ⟨⟨body.impl, writer.impl⟩, s.requests ++ [req]⟩

/-- `serve_connection` returns, after any number of turns, with the state `s`. -/
def Server.ServesConnection (srv : Server σ ω) (conn : Conn σ ω) (s : Serving σ ω) : Prop :=
  ∃ err, Loop.Returns srv.serveTurn ⟨conn, []⟩ (err, s)

/-! ## Turns -/

/-- Answering a request does nothing to its body but read from it. -/
theorem Server.respond_reads {srv : Server σ ω} {req : ServerRequest} {body body' : Body σ}
    {writer : BufferedWriter ω} {rw : ResponseWriter ω}
    (h : srv.respond req body writer = some (body', rw)) :
    ∃ ds out, body.reads ds = some (out, body') := by
  rw [respond] at h
  dsimp only at h
  split_ifs at h
  · obtain ⟨rw', -, h⟩ := Option.map_eq_some_iff.1 h
    cases h
    exact ⟨[], [], rfl⟩
  · obtain ⟨rw', -, h⟩ := Option.map_eq_some_iff.1 h
    cases h
    exact ⟨[], [], rfl⟩
  · exact srv.handler_reads h

/-- A turn that goes on has decoded a request, and left the connection where the body is. -/
theorem Server.serveTurn_next {srv : Server σ ω} {s s' : Serving σ ω}
    (h : srv.serveTurn s = some (.next s')) :
    ∃ req body body' ds out,
      requestDecode (.new s.conn.input BufferedReader.defaultBufsize) srv.maxHeaderBytes =
        some (.ok (req, body)) ∧
      body.reads ds = some (out, body') ∧ s'.conn.input = body'.impl ∧
      s'.requests = s.requests ++ [req] := by
  obtain ⟨result, hdecode, h⟩ := Option.bind_eq_some_iff.1 h
  rcases result with ⟨err, input⟩ | ⟨req, body⟩
  · cases h
  · obtain ⟨⟨body', rw⟩, hrespond, h⟩ := Option.bind_eq_some_iff.1 h
    obtain ⟨⟨res, writer⟩, -, h⟩ := Option.map_eq_some_iff.1 h
    cases h
    obtain ⟨ds, out, hreads⟩ := respond_reads hrespond
    exact ⟨req, body, body', ds, out, hdecode, hreads, rfl, rfl⟩

/-- A turn that leaves the loop has decoded no request. -/
theorem Server.serveTurn_done {srv : Server σ ω} {s s' : Serving σ ω} {err : ErrorCondition}
    (h : srv.serveTurn s = some (.done (err, s'))) : s'.requests = s.requests := by
  obtain ⟨result, -, h⟩ := Option.bind_eq_some_iff.1 h
  rcases result with ⟨err, input⟩ | ⟨req, body⟩
  · cases h
    rfl
  · obtain ⟨⟨body', rw⟩, -, h⟩ := Option.bind_eq_some_iff.1 h
    obtain ⟨⟨res, writer⟩, -, h⟩ := Option.map_eq_some_iff.1 h
    cases h

section Accepting

variable [AcceptingWriter ω]

/-- Every handler returns, and leaves the connection able to send. -/
def Server.Returning (srv : Server σ ω) : Prop :=
  ∀ (req : ServerRequest) (body : Body σ) (rw : ResponseWriter ω), rw.writer.Accepting →
    ∃ body' rw', srv.handler req body rw = some (body', rw') ∧ rw'.writer.Accepting

theorem ResponseWriter.send_accepting (iteration : Iteration) (rw : ResponseWriter ω)
    (hw : rw.writer.Accepting) (hencode : rw.encode = .http11) (statusCode : Status)
    (contentLength : ℕ) :
    ∃ rw', rw.send iteration statusCode contentLength = some rw' ∧ rw'.writer.Accepting := by
  let resp := { rw.resp with
    statusCode, headers := rw.resp.headers.setContentLength contentLength }
  obtain ⟨writer, hwrote, hw'⟩ := AcceptingWriter.wrote (show AcceptingWriter.Accepting rw.writer
    from hw) (responseParts resp (iteration.order resp.headers))
  refine ⟨{ rw with writer, resp }, ?_, hw'⟩
  rw [send, hencode]
  exact Option.bind_eq_some_iff.2 ⟨_, writeEach_wrote hwrote, rfl⟩

theorem Server.respond_accepting {srv : Server σ ω} (hsrv : srv.Returning) {req : ServerRequest}
    (hmajor : req.version.major = 1) (body : Body σ) {writer : BufferedWriter ω}
    (hw : writer.Accepting) :
    ∃ body' rw, srv.respond req body writer = some (body', rw) ∧ rw.writer.Accepting := by
  have hencode : responseEncoder req.version = .http11 := by
    rw [responseEncoder, hmajor]
    rfl
  rw [respond]
  dsimp only
  rw [if_neg (by simp [hmajor]), hencode]
  split_ifs with hupgrade
  · obtain ⟨rw', hsend, hw'⟩ := ResponseWriter.send_accepting srv.iteration
      ⟨writer, _, .http11⟩ hw rfl Status.switchingProtocols 0
    exact ⟨body, rw', by rw [hsend]; rfl, hw'⟩
  · exact hsrv req body _ hw

/-- A turn in which a request is decoded goes on. -/
theorem Server.serveTurn_accepting {srv : Server σ ω} (hsrv : srv.Returning) {s : Serving σ ω}
    (hout : AcceptingWriter.Accepting s.conn.output) {req : ServerRequest} {body : Body σ}
    (hmajor : req.version.major = 1)
    (hdecode : requestDecode (.new s.conn.input BufferedReader.defaultBufsize) srv.maxHeaderBytes =
      some (.ok (req, body))) :
    ∃ s', srv.serveTurn s = some (.next s') ∧ AcceptingWriter.Accepting s'.conn.output := by
  have hw : (BufferedWriter.new s.conn.output BufferedWriter.defaultBufsize).Accepting :=
    ⟨hout, Nat.zero_lt_succ _, Nat.zero_le _⟩
  obtain ⟨body', rw, hrespond, hw'⟩ := respond_accepting hsrv hmajor body hw
  obtain ⟨writer, ds, hflush, hacc, -⟩ := BufferedWriter.flush_accepting hw'
  refine ⟨⟨⟨body'.impl, writer.impl⟩, s.requests ++ [req]⟩, ?_, hacc.accepting⟩
  refine Option.bind_eq_some_iff.2 ⟨_, hdecode, Option.bind_eq_some_iff.2 ⟨_, hrespond, ?_⟩⟩
  exact Option.map_eq_some_iff.2 ⟨_, hflush, rfl⟩

end Accepting

end Model

end Cppnet.Http
