import Cppnet.Http.Encode
import Cppnet.Http.Text
import Cppnet.Io.ReadAhead

/-!
# `client`

`http/client.cpp`: sending requests to a host, one after the other, on a connection that is kept in
a pool. `send` borrows the connection and gives it back when it returns, but the body it returns
still reads from it, through a buffered reader of its own: what the caller does with the bodies of
earlier responses, and when, decides where the next response starts.

A *session* is such a connection, with what the calls of `send` have returned. The server answers
the `i`-th request with the `i`-th answer, a response with a length, and a body as long. If no byte
of the earlier answers is left in the socket whenever a request is sent, every response is that of
its answer, and every body too (`run_isolated`).
-/

namespace Cppnet.Http

open Lib Io

/-! ## Sending -/

/-- The `max` of `std::size_t`. -/
def sizeMax : ℕ := 2 ^ 64 - 1

/-- `client::send`, on the connection it borrows. When the request is sent, the server sends
    `answer`. HTTP/2 has no encoder with a result. -/
def send (answer : Bytes) (conn : Conn Source Sink) (found : Byte) (req : ClientRequest)
    (query headers : List (Bytes × List Bytes)) :
    Option (Except ErrorCondition (ClientResponse × Body Source) × Conn Source Sink) :=
  if req.version.major ≤ 1 then
    (requestEncode conn.output found req query headers).bind fun (err, output) =>
      match err with
      | some err => some (.error err, { conn with output })
      | none =>
        let input := { conn.input with pending := conn.input.pending ++ answer }
        let reader := BufferedReader.new input BufferedReader.defaultBufsize
        (responseDecode reader sizeMax).map fun
          | .error (err, input) => (.error err, ⟨input, output⟩)
          | .ok (resp, body) => (.ok (resp, body), ⟨body.impl, output⟩)
  else if req.version = ⟨2, 0⟩ then none
  else some (.error (.errc .notSupported), conn)

/-! ## Sessions -/

/-- The body, with its reader on the connection as it is now. -/
def Body.reconnect {σ : Type*} (body : Body σ) (conn : σ) : Body σ :=
  match body with
  | .limit r => .limit { r with parent := { r.parent with impl := conn } }
  | .chunked r => .chunked { r with parent := { r.parent with impl := conn } }

/-- A response the caller has got, with the bytes read from its body so far. -/
structure Received where
  response : ClientResponse
  body : Body Source
  delivered : Bytes

/-- A connection to a host, with the results of `send` on it. -/
structure Session where
  conn : Conn Source Sink
  results : List (Except ErrorCondition Received)

/-- What a caller does: sending a request, or reading from the body of the `i`-th response. -/
inductive Action
  | send (found : Byte) (req : ClientRequest) (query headers : List (Bytes × List Bytes))
  | read (i : ℕ) (data : Bytes)

/-- Whether a request is sent. -/
def Action.isSend : Action → Bool
  | .send .. => true
  | .read .. => false

/-- A request in a version before HTTP/2, if one is sent. -/
def Action.Http1 : Action → Prop
  | .send _ req _ _ => req.version.major ≤ 1
  | .read .. => True

/-- One action. -/
def Session.step (answers : ℕ → Bytes) (s : Session) : Action → Option Session
  | .send found req query headers =>
    (Http.send (answers s.results.length) s.conn found req query headers).map fun (result, conn) =>
      ⟨conn, s.results ++ [result.map fun (resp, body) => ⟨resp, body, []⟩]⟩
  | .read i data =>
    match s.results[i]? with
    | some (.ok x) =>
      ((x.body.reconnect s.conn.input).read data).map fun (res, data, body) =>
        ⟨{ s.conn with input := body.impl },
          s.results.set i (.ok ⟨x.response, body, x.delivered ++ data.take res.count⟩)⟩
    | _ => some s

theorem Session.step_eq_of_send (answers : ℕ → Bytes)
    (results : List (Except ErrorCondition Received)) {conn conn' : Conn Source Sink}
    {found : Byte} {req : ClientRequest} {query headers : List (Bytes × List Bytes)} {resp : ClientResponse}
    {body : Body Source} (h : Http.send (answers results.length) conn found req query headers =
      some (.ok (resp, body), conn')) :
    Session.step answers ⟨conn, results⟩ (.send found req query headers) =
      some ⟨conn', results ++ [.ok ⟨resp, body, []⟩]⟩ := by
  rw [step, h]
  rfl

/-- Actions, one after the other. -/
def Session.run (answers : ℕ → Bytes) (s : Session) : List Action → Option Session
  | [] => some s
  | a :: as => (s.step answers a).bind fun s => s.run answers as

/-- No byte of the earlier answers is left in the socket when a request is sent. -/
def Session.Drained (answers : ℕ → Bytes) : Session → List Action → Prop
  | _, [] => True
  | s, a :: as => (a.isSend → s.conn.input.pending = []) ∧
      ∀ s', s.step answers a = some s' → s'.Drained answers as

/-! ## Answers -/

/-- An answer of the server: a response with a length, and a body as long. -/
structure Answer where
  text : ResponseText
  body : Bytes
  length : text.HasLength body.length
  body_lt : body.length < 2 ^ 64
  lines_lt : linesLength text.lines < sizeMax

/-- What the server sends. -/
def Answer.bytes (a : Answer) : Bytes := a.text.text ++ a.body

/-- `x` is the response of the answer `a`, with the reader `r` for its body, and the end `rest` of
    the body still in the socket. -/
structure Received.Holds (x : Received) (a : Answer) (r : LimitReader (BufferedReader Source))
    (rest : Bytes) : Prop where
  response : x.response = a.text.response
  body : x.body = .limit r
  capacity_pos : 0 < r.parent.capacity
  fits : r.parent.buf.length ≤ r.parent.capacity
  limit : r.limit = a.body.length
  progress : r.progress = x.delivered.length
  content : x.delivered ++ (r.parent.buf ++ rest) = a.body

/-- The state of a session in which all responses are those of their answers. What is in the socket
    is of the body of the last one; those of the others are in the buffers of their readers. -/
structure Session.Isolated (answers : ℕ → Answer) (s : Session) : Prop where
  clean : s.conn.input.Clean
  accepting : s.conn.output.script = []
  results : ∀ (i : ℕ) (result : Except ErrorCondition Received), s.results[i]? = some result →
    ∃ (x : Received) (r : LimitReader (BufferedReader Source)), result = .ok x ∧
      x.Holds (answers i) r (if i + 1 = s.results.length then s.conn.input.pending else [])

theorem messageBody_impl {σ : Type*} [Reader σ Byte ErrorCondition] (headers : Headers)
    (r : BufferedReader σ) : (messageBody headers r).impl = r.impl := by
  rw [messageBody]
  split_ifs <;> rfl

/-- Sending a request, when a response comes in. -/
theorem send_text (conn : Conn Source Sink) (found : Byte) (req : ClientRequest)
    (hversion : req.version.major ≤ 1) (hclean : conn.input.Clean)
    (hout : conn.output.script = []) {t : ResponseText} (hlen : linesLength t.lines < sizeMax)
    {answer rest : Bytes} (hpending : conn.input.pending ++ answer = t.text ++ rest)
    (query headers : List (Bytes × List Bytes)) :
    ∃ r output, send answer conn found req query headers =
        some (.ok (t.response, messageBody (messageHeaders t.lines) r), ⟨r.impl, output⟩) ∧
      output.script = [] ∧ r.Ready ∧ r.impl.Clean ∧ Reader.content r = rest ∧
      Takes (.new { conn.input with pending := t.text ++ rest } BufferedReader.defaultBufsize)
        t.text r := by
  obtain ⟨output, hwrote, hout'⟩ := AcceptingWriter.wrote
    (show AcceptingWriter.Accepting conn.output from hout) (requestParts found req query headers)
  have hready : (BufferedReader.new { conn.input with pending := t.text ++ rest }
      BufferedReader.defaultBufsize).Ready :=
    BufferedReader.ready_source (fun ev hev => (hclean ev hev).1) (by decide)
  obtain ⟨r, hr, hc, ⟨bs, htakes⟩, hdecode⟩ := t.decode hready rfl hlen
  have hclean' : r.impl.Clean := htakes.preserves (P := Source.Clean)
    (fun hs hread => (PromptReader.err_of_clean hs hread).1) hclean
  -- What is behind the text is still to be read.
  have hbs : bs = t.text := by
    have h := htakes.content_eq
    rw [hc, BufferedReader.content_eq] at h
    exact (List.append_cancel_right h).symm
  refine ⟨r, output, ?_, hout', hr, hclean', hc, hbs ▸ htakes⟩
  rw [send, if_pos hversion, requestEncode, writeEach_wrote hwrote, Option.bind_some]
  dsimp only
  rw [hpending, hdecode, Option.map_some]
  dsimp only
  rw [messageBody_impl]

/-! ## Reading bodies -/

section Reading

variable {x : Received} {a : Answer} {r : LimitReader (BufferedReader Source)} {rest : Bytes}

/-- What is still to be read of a body, in the buffer and in the socket. -/
theorem Received.Holds.length_eq (h : x.Holds a r rest) :
    r.limit - r.progress = r.parent.buf.length + rest.length := by
  have hlen := congrArg List.length h.content
  rw [List.length_append, List.length_append] at hlen
  rw [h.limit, h.progress]
  omega

/-- A read for which there is enough in the buffer leaves the connection alone. -/
theorem Received.Holds.read_buffer (h : x.Holds a r rest) (conn : Source) (data : Bytes)
    (hle : min data.length (r.limit - r.progress) ≤ r.parent.buf.length) :
    ∃ res data' r', (x.body.reconnect conn).read data = some (res, data', .limit r') ∧
      r'.parent.impl = conn ∧
      Received.Holds ⟨x.response, .limit r', x.delivered ++ data'.take res.count⟩ a r' rest := by
  rw [h.body]
  by_cases hdone : r.progress ≥ r.limit
  · -- The body was read to its end.
    refine ⟨⟨0, some .closed⟩, data, { r with parent := { r.parent with impl := conn } }, ?_, rfl,
      h.response, rfl, h.capacity_pos, h.fits, h.limit, ?_, ?_⟩
    · rw [Body.reconnect, Body.read, LimitReader.read, if_pos hdone]
      rfl
    · rw [List.take_zero, List.append_nil]
      exact h.progress
    · rw [List.take_zero, List.append_nil]
      exact h.content
  set n := min data.length (r.limit - r.progress) with hn
  have hspan : (subspan data 0 n).length = n := by
    rw [subspan, List.drop_zero, List.length_take_of_le (min_le_left _ _)]
  have hparent := BufferedReader.read_of_le (r := { r.parent with impl := conn })
    (hspan.le.trans hle)
  rw [hspan] at hparent
  have htake : (overwrite data 0 (r.parent.buf.take n)).take n = r.parent.buf.take n := by
    rw [overwrite_zero, List.take_left' (List.length_take_of_le hle)]
  refine ⟨⟨n, none⟩, overwrite data 0 (r.parent.buf.take n),
    ⟨⟨conn, r.parent.buf.drop n, r.parent.capacity, r.parent.err⟩, r.limit, r.progress + n⟩,
    ?_, rfl, h.response, rfl, h.capacity_pos, ?_, h.limit, ?_, ?_⟩
  · rw [Body.reconnect, Body.read, LimitReader.read, if_neg hdone]
    change (Option.bind (BufferedReader.read _ (subspan data 0 n)) _).map _ = _
    rw [hparent]
    rfl
  · rw [List.length_drop]
    exact (Nat.sub_le _ _).trans h.fits
  · rw [htake, List.length_append, List.length_take_of_le hle, h.progress]
  · rw [htake, List.append_assoc, ← List.append_assoc (r.parent.buf.take n),
      List.take_append_drop, h.content]

/-- A read from the body of the last response takes what is in the socket of it. -/
theorem Received.Holds.read_socket {conn : Source} (hclean : conn.Clean)
    (h : x.Holds a r conn.pending) (data : Bytes) :
    ∃ res data' r', (x.body.reconnect conn).read data = some (res, data', .limit r') ∧
      r'.parent.impl.Clean ∧
      Received.Holds ⟨x.response, .limit r', x.delivered ++ data'.take res.count⟩ a r'
        r'.parent.impl.pending := by
  by_cases hdata : data = []
  · obtain ⟨res, data', r', hread, himpl, hholds⟩ := h.read_buffer conn data
      (by simp [hdata])
    rw [← himpl] at hclean hholds
    exact ⟨res, data', r', hread, hclean, hholds⟩
  -- What is in the socket is the rest of this body, so the stream does not end before it.
  let lr : LimitReader (BufferedReader Source) := { r with parent := { r.parent with impl := conn } }
  have hcontent : Reader.content lr.parent = r.parent.buf ++ conn.pending := rfl
  have hfed : lr.Fed := by
    refine ⟨⟨PromptReader.prompt_of_clean hclean, h.capacity_pos, h.fits⟩, hclean, ?_⟩
    rw [hcontent, List.length_append]
    exact h.length_eq.le
  obtain ⟨res, data', r', hread, hfed', -⟩ := LimitReader.read_fed hfed hdata
  obtain ⟨hd, hlimit, hprogress, -⟩ := LimitReader.read_spec hread
  refine ⟨res, data', r', ?_, hfed'.clean, h.response, rfl, hfed'.ready.capacity_pos,
    hfed'.ready.fits, hlimit.trans h.limit, ?_, ?_⟩
  · rw [h.body]
    exact Option.map_eq_some_iff.2 ⟨_, hread, rfl⟩
  · rw [hprogress, List.length_append, hd.take_span, List.length_take_of_le hd.le_content]
    exact congrArg (· + res.count) h.progress
  · have happend := hd.append_rest
    rw [hcontent, BufferedReader.content_eq] at happend
    rw [List.append_assoc, ← h.content, ← happend]
    rfl

end Reading

/-! ## Runs -/

section Runs

variable {answers : ℕ → Answer} {s : Session}

/-- A request that is sent when the socket is empty gets its answer. -/
theorem Session.Isolated.step_send (h : s.Isolated answers) (hpending : s.conn.input.pending = [])
    (found : Byte) {req : ClientRequest} (hversion : req.version.major ≤ 1)
    (query headers : List (Bytes × List Bytes)) :
    ∃ s', s.step (fun i => (answers i).bytes) (.send found req query headers) = some s' ∧
      s'.Isolated answers ∧ s'.results.length = s.results.length + 1 := by
  set a := answers s.results.length with ha
  have hbytes : s.conn.input.pending ++ a.bytes = a.text.text ++ a.body := by
    rw [hpending]
    rfl
  obtain ⟨r, output, hsend, hout, hr, hclean, hc, -⟩ := send_text s.conn found req hversion h.clean
    h.accepting a.lines_lt hbytes query headers
  rw [a.length.messageBody a.body_lt] at hsend
  refine ⟨_, step_eq_of_send _ _ hsend, ⟨hclean, hout, ?_⟩, List.length_append⟩
  -- The bodies of earlier responses have nothing left in the socket, which was empty.
  intro i result hresult
  rw [List.length_append, List.length_singleton]
  by_cases hi : i < s.results.length
  · rw [List.getElem?_append_left hi] at hresult
    obtain ⟨x, r', rfl, hx⟩ := h.results i result hresult
    rw [hpending, ite_self] at hx
    refine ⟨x, r', rfl, ?_⟩
    rwa [if_neg (by omega)]
  · rw [List.getElem?_append_right (Nat.le_of_not_lt hi), List.getElem?_singleton] at hresult
    split_ifs at hresult with hlast
    cases hresult
    obtain rfl : i = s.results.length := by omega
    refine ⟨_, .new r a.body.length, rfl, ?_⟩
    rw [if_pos rfl]
    exact ⟨rfl, rfl, hr.capacity_pos, hr.fits, rfl, rfl, hc⟩

/-- A session stays isolated when the reader of a body takes more of its own. -/
theorem Session.Isolated.set (h : s.Isolated answers) {i : ℕ} {x : Received}
    {r : LimitReader (BufferedReader Source)} {input : Source} (hclean : input.Clean)
    (hinput : input = s.conn.input ∨ i + 1 = s.results.length)
    (hx : x.Holds (answers i) r (if i + 1 = s.results.length then input.pending else [])) :
    Session.Isolated answers ⟨{ s.conn with input }, s.results.set i (.ok x)⟩ := by
  refine ⟨hclean, h.accepting, fun j result hresult => ?_⟩
  rw [List.length_set]
  by_cases hij : i = j
  · subst hij
    rw [List.getElem?_set_self'] at hresult
    obtain ⟨_, -, rfl⟩ := Option.map_eq_some_iff.1 hresult
    exact ⟨x, r, rfl, hx⟩
  · rw [List.getElem?_set_ne hij] at hresult
    obtain ⟨y, r', rfl, hy⟩ := h.results j result hresult
    refine ⟨y, r', rfl, ?_⟩
    rcases hinput with rfl | hlast
    · exact hy
    · have hj : j + 1 ≠ s.results.length := by omega
      rw [if_neg hj] at hy ⊢
      exact hy

/-- A read keeps a session isolated. -/
theorem Session.Isolated.step_read (h : s.Isolated answers) (i : ℕ) (data : Bytes) :
    ∃ s', s.step (fun i => (answers i).bytes) (.read i data) = some s' ∧
      s'.Isolated answers ∧ s'.results.length = s.results.length := by
  rw [step]
  rcases hresult : s.results[i]? with _ | result
  · exact ⟨s, rfl, h, rfl⟩
  obtain ⟨x, r, rfl, hx⟩ := h.results i result hresult
  by_cases hlast : i + 1 = s.results.length
  · -- The body of the last response goes on in the socket.
    rw [if_pos hlast] at hx
    obtain ⟨res, data', r', hread, hclean, hx'⟩ := hx.read_socket h.clean data
    dsimp only
    rw [hread]
    refine ⟨_, rfl, h.set (r := r') hclean (.inr hlast) ?_, List.length_set⟩
    rwa [if_pos hlast]
  · -- What is left of the body of an earlier one is all in its buffer.
    rw [if_neg hlast] at hx
    have hle : min data.length (r.limit - r.progress) ≤ r.parent.buf.length := by
      rw [hx.length_eq]
      exact min_le_right _ _
    obtain ⟨res, data', r', hread, himpl, hx'⟩ := hx.read_buffer s.conn.input data hle
    dsimp only
    rw [hread]
    have hclean : r'.parent.impl.Clean := himpl ▸ h.clean
    refine ⟨_, rfl, h.set (r := r') hclean (.inl himpl) ?_, List.length_set⟩
    rwa [if_neg hlast]

/-- An action, if the socket is empty when a request is sent. -/
theorem Session.Isolated.step (h : s.Isolated answers) {a : Action} (hversion : a.Http1)
    (hpending : a.isSend → s.conn.input.pending = []) :
    ∃ s', s.step (fun i => (answers i).bytes) a = some s' ∧ s'.Isolated answers ∧
      s'.results.length = s.results.length + if a.isSend then 1 else 0 := by
  rcases a with ⟨found, req, query, headers⟩ | ⟨i, data⟩
  · exact h.step_send (hpending rfl) found hversion query headers
  · exact h.step_read i data

/-- Actions, one after the other. -/
theorem Session.Isolated.run (h : s.Isolated answers) {actions : List Action}
    (hversion : ∀ a ∈ actions, a.Http1) (hdrained : s.Drained (fun i => (answers i).bytes) actions) :
    ∃ s', s.run (fun i => (answers i).bytes) actions = some s' ∧ s'.Isolated answers ∧
      s'.results.length = s.results.length + actions.countP Action.isSend := by
  induction actions generalizing s with
  | nil => exact ⟨s, rfl, h, rfl⟩
  | cons a actions ih =>
    rw [List.forall_mem_cons] at hversion
    obtain ⟨s₁, hstep, h₁, hlen₁⟩ := h.step hversion.1 hdrained.1
    obtain ⟨s', hrun, h', hlen⟩ := ih h₁ hversion.2 (hdrained.2 s₁ hstep)
    refine ⟨s', Option.bind_eq_some_iff.2 ⟨s₁, hstep, hrun⟩, h', ?_⟩
    rw [hlen, hlen₁, List.countP_cons]
    omega

end Runs

/-- In every run of requests on a connection, and of reads from the bodies of their responses, in
    which the socket is empty whenever a request is sent: every response is that of its answer, and
    what was read from its body is the front of that of its answer. -/
theorem run_isolated (answers : ℕ → Answer) (conn : Conn Source Sink) (hclean : conn.input.Clean)
    (hout : conn.output.script = []) (actions : List Action) (hversion : ∀ a ∈ actions, a.Http1)
    (hdrained : Session.Drained (fun i => (answers i).bytes) ⟨conn, []⟩ actions) :
    ∃ s, Session.run (fun i => (answers i).bytes) ⟨conn, []⟩ actions = some s ∧
      s.results.length = actions.countP Action.isSend ∧
      ∀ (i : ℕ) (result : Except ErrorCondition Received), s.results[i]? = some result →
        ∃ x : Received, result = .ok x ∧ x.response = (answers i).text.response ∧
          x.delivered <+: (answers i).body := by
  have h₀ : Session.Isolated answers ⟨conn, []⟩ :=
    ⟨hclean, hout, fun i result hresult => by cases hresult⟩
  obtain ⟨s, hrun, h, hlen⟩ := h₀.run hversion hdrained
  refine ⟨s, hrun, by rw [hlen]; exact Nat.zero_add _, fun i result hresult => ?_⟩
  obtain ⟨x, r, rfl, hx⟩ := h.results i result hresult
  exact ⟨x, rfl, hx.response, ⟨_, hx.content⟩⟩

/-- The text of `404 N`, without headers. -/
def ResponseText.notFound : ResponseText where
  fields := []
  fields_colon := FieldsText.nil_colon
  fields_crlf := FieldsText.nil_crlf
  major := sv "1"
  minor := sv "1"
  status := 404
  number := sv "404"
  reason := sv "N"
  major_isNumber := isNumber_one
  minor_isNumber := isNumber_one
  statusLine := ⟨by decide, by decide, by decide, by decide⟩

/-- The text of `200 OK`, with a length. -/
def ResponseText.ok (length : Bytes) (hlength : 10 ∉ length) : ResponseText where
  fields := [(sv "Content-Length", length)]
  fields_colon := List.forall_mem_singleton.2 (show ch ':' ∉ sv "Content-Length" by decide)
  fields_crlf := by
    refine List.forall_mem_singleton.2 (not_crlf_of_not_mem ?_)
    rw [List.mem_append, not_or]
    exact ⟨show 10 ∉ sv "Content-Length" ++ sv ": " by decide, hlength⟩
  major := sv "1"
  minor := sv "1"
  status := 200
  number := sv "200"
  reason := sv "OK"
  major_isNumber := isNumber_one
  minor_isNumber := isNumber_one
  statusLine := ⟨by decide, by decide, by decide, by decide⟩

/-- An answer without a body. -/
def Answer.empty : Answer where
  text := .ok (sv "0") (by decide)
  body := []
  length := ⟨by decide, by decide⟩
  body_lt := by decide
  lines_lt := by decide

/-- An answer whose body is the text of another response. -/
def Answer.nested : Answer where
  text := .ok (sv "18") (by decide)
  body := ResponseText.notFound.text
  length := ⟨by decide, by decide⟩
  body_lt := by decide
  lines_lt := by decide

/-- Two requests, whose answers have no body. -/
theorem run_isolated_two :
    let answers : ℕ → Answer := fun _ => .empty
    let action : Action := .send (ch ' ') { method := .get, version := ⟨1, 1⟩ } [] []
    ∃ s, Session.run (fun i => (answers i).bytes) ⟨⟨⟨[], [⟨3, none⟩], none⟩, .empty⟩, []⟩
        [action, action] = some s ∧
      s.results.length = 2 ∧
      ∀ (i : ℕ) (result : Except ErrorCondition Received), s.results[i]? = some result →
        ∃ x : Received, result = .ok x ∧ x.response = Answer.empty.text.response ∧
          x.delivered <+: [] := by
  intro answers action
  have hclean : Source.Clean ⟨[], [⟨3, none⟩], none⟩ := by decide
  have h₀ : Session.Isolated answers ⟨⟨⟨[], [⟨3, none⟩], none⟩, .empty⟩, []⟩ :=
    ⟨hclean, rfl, fun i result hresult => by cases hresult⟩
  have hversion : ∀ a ∈ [action, action], a.Http1 := by
    simp [action, Action.Http1]
  refine run_isolated answers _ hclean rfl [action, action] hversion ⟨fun _ => rfl, fun s hstep =>
    ⟨fun _ => ?_, fun _ _ => trivial⟩⟩
  -- There is nothing but the first response to be left behind it.
  obtain ⟨s', hstep', h, hlen⟩ := h₀.step_send rfl (ch ' ') (hversion action List.mem_cons_self) [] []
  cases hstep.symm.trans hstep'
  obtain ⟨result, hresult⟩ : ∃ result, s.results[0]? = some result :=
    ⟨_, List.getElem?_eq_getElem (by rw [hlen]; exact Nat.zero_lt_succ _)⟩
  obtain ⟨x, r, rfl, hx⟩ := h.results 0 result hresult
  have hcontent := hx.content
  rw [if_pos (show 0 + 1 = s.results.length from hlen.symm)] at hcontent
  exact (List.append_eq_nil_iff.1 (List.append_eq_nil_iff.1 hcontent).2).2

/-- Two requests, without a read from the body of the first response, when the first read of the
    socket ends before it: it is taken for the second response. -/
theorem run_takes_body_for_response :
    let a := Answer.nested
    let action : Action := .send (ch ' ') { method := .get, version := ⟨1, 1⟩ } [] []
    ∃ s x, Session.run (fun _ => a.bytes)
        ⟨⟨⟨[], [⟨a.text.text.length, none⟩], none⟩, .empty⟩, []⟩ [action, action] = some s ∧
      s.results[1]? = some (.ok x) ∧ x.response ≠ a.text.response := by
  intro a action
  have hversion : (1 : UInt32) ≤ 1 := by decide
  have hclean : Source.Clean ⟨[], [⟨a.text.text.length, none⟩], none⟩ := by decide
  obtain ⟨r, output, hsend, hout, hr, hclean₁, hc, htakes⟩ := send_text
    ⟨⟨[], [⟨a.text.text.length, none⟩], none⟩, .empty⟩ (ch ' ') { method := .get, version := ⟨1, 1⟩ }
    hversion hclean rfl a.lines_lt (show [] ++ a.bytes = a.text.text ++ a.body from rfl) [] []
  have hbuf : r.buf = [] := by
    refine htakes.buf_eq_nil (Nat.zero_lt_succ _) (k := 1) ?_
    rw [hc, Function.iterate_one, Source.drain_pending]
    decide
  have hpending : r.impl.pending ++ a.bytes = ResponseText.notFound.text ++ a.bytes := by
    rw [BufferedReader.content_eq, hbuf, List.nil_append] at hc
    exact congrArg (· ++ a.bytes) hc
  have hlen : linesLength ResponseText.notFound.lines < sizeMax := by decide
  obtain ⟨r₂, output₂, hsend₂, -⟩ := send_text ⟨r.impl, output⟩
    (ch ' ') { method := .get, version := ⟨1, 1⟩ } hversion hclean₁ hout hlen hpending [] []
  have hstep := Session.step_eq_of_send (fun _ => a.bytes) [] hsend
  have hstep₂ := Session.step_eq_of_send (fun _ => a.bytes)
    [.ok ⟨a.text.response, messageBody (messageHeaders a.text.lines) r, []⟩] hsend₂
  have hstatus : ResponseText.notFound.response.statusCode ≠ a.text.response.statusCode := by decide
  refine ⟨_, _, Option.bind_eq_some_iff.2 ⟨_, hstep, Option.bind_eq_some_iff.2 ⟨_, hstep₂, rfl⟩⟩,
    rfl, ?_⟩
  exact fun h => hstatus (congrArg ClientResponse.statusCode h)

end Cppnet.Http
