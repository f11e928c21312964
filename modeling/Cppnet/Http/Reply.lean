import Cppnet.Http.Client
import Cppnet.Http.RoundTrip
import Cppnet.Http.Routes
import Cppnet.Http.Server

/-!
# Replies

What a server sends whose handler is a `router`. Handlers of the user answer with a `Reply`: they set the headers, send
the status and the length of the content, and write the content. What is to be answered is said by the routes
alone (`replyTo`), with what the server answers by itself.

* `serveTurn_reply`: a turn of the server writes the text of that reply, and no more, and leaves the connection behind
  the request.
-/

namespace Cppnet.Http

open Lib Io Util

/-! ## Headers that are set -/

section Set

variable {headers : Headers}

/-- Headers with one value for each key that are received as they are sent. -/
@[mk_iff] structure Headers.Plain (headers : Headers) : Prop where
  clean : CleanHeaders headers
  single : ∀ e ∈ headers.entries, e.2.length = 1

instance (headers : Headers) : Decidable headers.Plain := decidable_of_iff' _ (Headers.plain_iff headers)

theorem Headers.plain_empty : Headers.Plain .empty := by decide

theorem Headers.Plain.set (h : headers.Plain) {key val : Bytes} (hkey : CleanText key) (hcolon : ch ':' ∉ key)
    (hval : CleanText val) : (headers.set key val).Plain := by
  have hvals : ∀ v ∈ [val], CleanText v := List.forall_mem_singleton.2 hval
  refine ⟨⟨?_, ?_, ?_, ?_⟩, ?_⟩
  · exact KeyedMap.forall_mem_alter h.clean.key hkey h.clean.key
  · exact KeyedMap.forall_mem_alter h.clean.key_colon hcolon h.clean.key_colon
  · exact KeyedMap.forall_mem_alter h.clean.ne_nil (List.cons_ne_nil _ _) fun _ _ => List.cons_ne_nil _ _
  · exact KeyedMap.forall_mem_alter h.clean.values hvals fun _ _ => hvals
  · exact KeyedMap.forall_mem_alter h.single rfl fun _ _ => rfl

theorem cleanText_toString (n : ℕ) : CleanText (toString n) := by
  have hnum := isNumeral_toString n
  exact ⟨hnum.1, hnum.not_mem (by decide), hnum.not_mem (by decide), hnum.not_mem (by decide),
    trimmed_of_isNumeral hnum⟩

theorem Headers.Plain.setContentLength (h : headers.Plain) (n : ℕ) : (headers.setContentLength n).Plain :=
  h.set (by decide) (by decide) (cleanText_toString n)

/-- The body of a message with a length, and without a coding. -/
theorem messageBody_of_same {σ : Type*} [Reader σ Byte ErrorCondition] {received : Headers} {n : ℕ}
    (hsame : received.Same (headers.setContentLength n)) (hn : n < 2 ^ 64)
    (hcoding : headers.find? (sv "Transfer-Encoding") = none) (r : BufferedReader σ) :
    messageBody received r = .limit (.new r n) := by
  have hlength : received.find? (sv "Content-Length") = some [toString n] := by
    rw [hsame.find?_eq, Headers.setContentLength, Headers.set, KeyedMap.find?_alter, if_pos rfl]
  have hnone : received.find? (sv "Transfer-Encoding") = none := by
    rw [hsame.find?_eq, Headers.setContentLength, Headers.set, KeyedMap.find?_alter, if_neg (by decide), hcoding]
  rw [messageBody, Headers.isChunked_eq_false hnone, Headers.getContentLength_eq hn hlength]
  rfl

end Set

/-! ## Replies -/

/-- What is answered to a request. The length of the content is sent with it. -/
structure Reply where
  status : Status
  headers : Headers := .empty
  content : Bytes := []

namespace Reply

variable (r : Reply)

/-- The headers that are sent. -/
def sent : Headers := r.headers.setContentLength r.content.length

/-- The text that is sent, with the headers in an order. -/
def text (version : ProtocolVersion) (order : List (Bytes × List Bytes)) : Bytes :=
  (responseParts ⟨version, r.status, r.sent⟩ order).flatten ++ r.content

/-- A reply that is received as it is sent. -/
structure Clean : Prop where
  status : r.status.Named
  headers : r.headers.Plain
  coding : r.headers.find? (sv "Transfer-Encoding") = none
  content_lt : r.content.length < 2 ^ 64
  lines_lt : linesLength (r.sent.entries.map headerLine) < sizeMax

end Reply

/-- The reply to a request, by the routes of the router, or by the server itself. -/
def replyTo (routes : List (Router.Route (ServerRequest → Reply))) (req : ServerRequest) : Reply :=
  if req.version.major ≠ 1 ∧ req.version.major ≠ 2 then { status := Status.httpVersionNotSupported }
  else if upgradeToProtocol req ≠ [] then
    { status := Status.switchingProtocols
      headers := (Headers.set .empty (sv "Upgrade") (upgradeToProtocol req)).set (sv "Connection") (sv "upgrade") }
  else
    match Router.prescribed routes req.method req.uri.path with
    | .invoke handler => handler req
    | .send status => { status }

/-! ## Handlers -/

section Model

variable {σ ω : Type*} [Reader σ Byte ErrorCondition] [Writer ω Byte ErrorCondition]

/-- What a handler does that answers with `r`. -/
def ResponseWriter.reply (iteration : Iteration) (rw : ResponseWriter ω) (r : Reply) : Option (ResponseWriter ω) :=
  let rw := { rw with resp := { rw.resp with headers := r.headers } }
  (rw.send iteration r.status r.content.length).bind fun rw =>
    (rw.writer.write r.content).map fun (_, writer) => { rw with writer }

/-- `operator()` of a router. -/
def Router.serve (router : Router (ServerRequest → Reply)) (iteration : Iteration) (req : ServerRequest)
    (rw : ResponseWriter ω) : Option (ResponseWriter ω) :=
  match router.dispatch req.method req.uri.path with
  | .invoke handler => rw.reply iteration (handler req)
  | .send status => rw.send iteration status 0

/-- A server with a router. -/
def Router.server (router : Router (ServerRequest → Reply)) (iteration : Iteration) (maxHeaderBytes : ℕ) :
    Server σ ω where
  maxHeaderBytes := maxHeaderBytes
  iteration := iteration
  handler req body rw := (router.serve iteration req rw).map (body, ·)
  handler_reads h := by
    obtain ⟨rw', -, h⟩ := Option.map_eq_some_iff.1 h
    cases h
    exact ⟨[], [], rfl⟩

/-! ## What is sent -/

section Accepting

variable [LawfulWriter ω] [AcceptingWriter ω]

/-- What is written to a buffered writer is behind what was. -/
theorem exists_write {w : BufferedWriter ω} (hw : w.Accepting) (data : Bytes) :
    ∃ w', w.write data = some (⟨data.length, none⟩, w') ∧ w'.Accepting ∧
      Writer.output w' = Writer.output w ++ data := by
  obtain ⟨w', ds, hwrite, hw', -, hwrote, -, hdata⟩ := BufferedWriter.write_accepting hw data
  refine ⟨w', hwrite, hw', ?_⟩
  change Writer.output w'.impl ++ w'.buf = Writer.output w.impl ++ w.buf ++ data
  rw [hwrote.output_eq, List.append_assoc, hdata, List.append_assoc]

theorem exists_writeEach {w : BufferedWriter ω} (hw : w.Accepting) (parts : List Bytes) :
    ∃ w', writeEach w parts = some (none, w') ∧ w'.Accepting ∧
      Writer.output w' = Writer.output w ++ parts.flatten := by
  induction parts generalizing w with
  | nil => exact ⟨w, rfl, hw, (List.append_nil _).symm⟩
  | cons part parts ih =>
    obtain ⟨w₁, hwrite, hw₁, hout₁⟩ := exists_write hw part
    obtain ⟨w', heach, hw', hout⟩ := ih hw₁
    refine ⟨w', ?_, hw', by rw [hout, hout₁, List.flatten_cons, List.append_assoc]⟩
    have hpart : Writer.write w part = some (⟨part.length, none⟩, w₁) := hwrite
    rw [writeEach, hpart]
    exact heach

theorem ResponseWriter.exists_send (iteration : Iteration) (rw : ResponseWriter ω) (hw : rw.writer.Accepting)
    (hencode : rw.encode = .http11) (status : Status) (n : ℕ) :
    ∃ rw', rw.send iteration status n = some rw' ∧ rw'.writer.Accepting ∧
      Writer.output rw'.writer = Writer.output rw.writer ++
        (responseParts ⟨rw.resp.version, status, rw.resp.headers.setContentLength n⟩
          (iteration.order (rw.resp.headers.setContentLength n))).flatten := by
  obtain ⟨writer, heach, hw', hout⟩ := exists_writeEach hw
    (responseParts ⟨rw.resp.version, status, rw.resp.headers.setContentLength n⟩
      (iteration.order (rw.resp.headers.setContentLength n)))
  refine ⟨⟨writer, ⟨rw.resp.version, status, rw.resp.headers.setContentLength n⟩, rw.encode⟩, ?_, hw', hout⟩
  rw [send, hencode]
  exact Option.bind_eq_some_iff.2 ⟨_, heach, rfl⟩

theorem ResponseWriter.exists_reply (iteration : Iteration) (rw : ResponseWriter ω) (hw : rw.writer.Accepting)
    (hencode : rw.encode = .http11) (r : Reply) :
    ∃ rw', rw.reply iteration r = some rw' ∧ rw'.writer.Accepting ∧
      Writer.output rw'.writer = Writer.output rw.writer ++ r.text rw.resp.version (iteration.order r.sent) := by
  obtain ⟨rw₁, hsend, hw₁, hout₁⟩ := ResponseWriter.exists_send iteration
    { rw with resp := { rw.resp with headers := r.headers } } hw hencode r.status r.content.length
  obtain ⟨writer, hwrite, hw', hout⟩ := exists_write hw₁ r.content
  refine ⟨{ rw₁ with writer }, ?_, hw', ?_⟩
  · exact Option.bind_eq_some_iff.2 ⟨rw₁, hsend, Option.map_eq_some_iff.2 ⟨_, hwrite, rfl⟩⟩
  · rw [hout, hout₁, List.append_assoc]
    rfl

variable {routes : List (Router.Route (ServerRequest → Reply))} {router : Router (ServerRequest → Reply)}

/-- A request is answered by the reply to it. -/
theorem Router.exists_respond (hroutes : Router.empty.addAll routes = some router) (iteration : Iteration)
    (maxHeaderBytes : ℕ) {req : ServerRequest} (hmajor : req.version.major ≠ 2) (body : Body σ)
    {writer : BufferedWriter ω} (hw : writer.Accepting) :
    ∃ rw, (router.server iteration maxHeaderBytes).respond req body writer = some (body, rw) ∧
      rw.writer.Accepting ∧ Writer.output rw.writer = Writer.output writer ++
        (replyTo routes req).text req.version (iteration.order (replyTo routes req).sent) := by
  have hencode : responseEncoder req.version = .http11 := if_neg hmajor
  -- A reply without content is that of `send` alone.
  have hsend : ∀ (status : Status) (headers : Headers), ∃ rw,
      (⟨writer, ⟨req.version, Status.none, headers⟩, .http11⟩ : ResponseWriter ω).send iteration status 0 = some rw ∧
        rw.writer.Accepting ∧ Writer.output rw.writer = Writer.output writer ++
          (Reply.text ⟨status, headers, []⟩ req.version (iteration.order (Reply.sent ⟨status, headers, []⟩))) := by
    intro status headers
    obtain ⟨rw, hsend, hw', hout⟩ := ResponseWriter.exists_send iteration
      ⟨writer, ⟨req.version, Status.none, headers⟩, .http11⟩ hw rfl status 0
    refine ⟨rw, hsend, hw', hout.trans ?_⟩
    rw [Reply.text, List.append_nil]
    rfl
  rw [Server.respond, replyTo, hencode]
  dsimp only
  split_ifs with hunsupported hupgrade
  · obtain ⟨rw, h, hrw⟩ := hsend Status.httpVersionNotSupported .empty
    exact ⟨rw, Option.map_eq_some_iff.2 ⟨rw, h, rfl⟩, hrw⟩
  · obtain ⟨rw, h, hrw⟩ := hsend Status.switchingProtocols
      ((Headers.set .empty (sv "Upgrade") (upgradeToProtocol req)).set (sv "Connection") (sv "upgrade"))
    exact ⟨rw, Option.map_eq_some_iff.2 ⟨rw, h, rfl⟩, hrw⟩
  · have hdispatch := (Router.holds_of_addAll hroutes).dispatch_eq req.method req.uri.path
    rw [Router.server]
    dsimp only
    rw [Router.serve, hdispatch]
    rcases Router.prescribed routes req.method req.uri.path with handler | status
    · obtain ⟨rw, h, hrw⟩ := ResponseWriter.exists_reply iteration
        ⟨writer, { version := req.version }, .http11⟩ hw rfl (handler req)
      exact ⟨rw, Option.map_eq_some_iff.2 ⟨rw, h, rfl⟩, hrw⟩
    · obtain ⟨rw, h, hrw⟩ := hsend status .empty
      exact ⟨rw, Option.map_eq_some_iff.2 ⟨rw, h, rfl⟩, hrw⟩

/-- A turn in which a request is decoded sends the reply to it. -/
theorem serveTurn_reply (hroutes : Router.empty.addAll routes = some router) (iteration : Iteration)
    (maxHeaderBytes : ℕ) {s : Serving σ ω} (hout : AcceptingWriter.Accepting s.conn.output) {req : ServerRequest}
    {body : Body σ} (hmajor : req.version.major ≠ 2)
    (hdecode : requestDecode (.new s.conn.input BufferedReader.defaultBufsize) maxHeaderBytes =
      some (.ok (req, body))) :
    ∃ output, (router.server iteration maxHeaderBytes).serveTurn s =
        some (.next ⟨⟨body.impl, output⟩, s.requests ++ [req]⟩) ∧ AcceptingWriter.Accepting output ∧
      Writer.output output = Writer.output s.conn.output ++
        (replyTo routes req).text req.version (iteration.order (replyTo routes req).sent) := by
  have hw : (BufferedWriter.new s.conn.output BufferedWriter.defaultBufsize).Accepting :=
    ⟨hout, Nat.zero_lt_succ _, Nat.zero_le _⟩
  obtain ⟨rw, hrespond, hw', houtput⟩ := Router.exists_respond hroutes iteration maxHeaderBytes hmajor body hw
  obtain ⟨writer, ds, hflush, hacc, -, hwrote, hdata, -⟩ := BufferedWriter.flush_accepting hw'
  refine ⟨writer.impl, ?_, hacc.accepting, ?_⟩
  · exact Option.bind_eq_some_iff.2 ⟨_, hdecode, Option.bind_eq_some_iff.2 ⟨_, hrespond,
      Option.map_eq_some_iff.2 ⟨_, hflush, rfl⟩⟩⟩
  · rw [hwrote.output_eq, hdata]
    refine Eq.trans houtput ?_
    rw [show Writer.output (BufferedWriter.new s.conn.output BufferedWriter.defaultBufsize) =
      Writer.output s.conn.output from List.append_nil _]

end Accepting

end Model

/-! ## Clean replies -/

/-- What the server answers by itself is received as it is sent. -/
theorem clean_status {status : Status} (hstatus : status.Named) : Reply.Clean { status } where
  status := hstatus
  headers := Headers.plain_empty
  coding := rfl
  content_lt := Nat.two_pow_pos 64
  lines_lt := show linesLength ((Headers.setContentLength .empty 0).entries.map headerLine) < sizeMax by decide

theorem upgradeToProtocol_eq {req : ServerRequest} (h : upgradeToProtocol req ≠ []) :
    upgradeToProtocol req = sv "HTTP/1.1" := by
  unfold upgradeToProtocol at h ⊢
  generalize req.headers.getAll (sv "Upgrade") = values at h ⊢
  cases values with
  | none => exact (h rfl).elim
  | some upgrade =>
    dsimp only at h ⊢
    cases hfind : upgrade.find? isProtocolSupported with
    | none =>
      rw [hfind] at h
      exact (h rfl).elim
    | some protocol =>
      have hsupported : isProtocolSupported protocol := List.find?_some hfind
      exact of_decide_eq_true hsupported

theorem clean_upgrade : Reply.Clean
    { status := Status.switchingProtocols
      headers := (Headers.set .empty (sv "Upgrade") (sv "HTTP/1.1")).set (sv "Connection") (sv "upgrade") } where
  status := by decide
  headers := by decide
  coding := by decide
  content_lt := by decide
  lines_lt := by decide

/-- If the replies of all handlers are received as they are sent, then so is the reply to any request. -/
theorem clean_replyTo {routes : List (Router.Route (ServerRequest → Reply))}
    (hclean : ∀ ρ ∈ routes, ∀ req, (ρ.handler req).Clean) (req : ServerRequest) : (replyTo routes req).Clean := by
  rw [replyTo]
  split_ifs with hunsupported hupgrade
  · exact clean_status (by decide)
  · rw [upgradeToProtocol_eq hupgrade]
    exact clean_upgrade
  · rw [Router.prescribed]
    rcases Router.follow routes [] (Router.segments req.uri.path) with _ | p
    · exact clean_status (by decide)
    · dsimp only
      rcases hregistered : Router.registered routes req.method p with _ | handler
      · exact clean_status (by decide)
      · obtain ⟨ρ, hρ, -, -, rfl⟩ := Router.registered_eq_some hregistered
        exact hclean ρ hρ req

end Cppnet.Http
