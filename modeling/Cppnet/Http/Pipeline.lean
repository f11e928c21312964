import Cppnet.Http.CutText
import Cppnet.Http.Server
import Cppnet.Io.ReadAhead

/-!
# Pipelining

Requests without bodies, sent back to back on a connection. What the reader of one turn has read
ahead is lost to the next turn: the loop of `serve_connection` decodes these requests, all of them
and in order, if and only if each of them starts where a read of the socket does
(`serveConnection_decodes_iff`).
-/

namespace Cppnet.Http

open Lib Io

/-- A request the server can be sent: in HTTP/1.x, without a body, and with headers that are not
    too long. -/
structure RequestText.Served (t : RequestText) (maxHeaderBytes : ℕ) : Prop where
  major : (numeralVersion t.major t.minor).major = 1
  noBody : t.NoBody
  length : linesLength t.lines < maxHeaderBytes

/-- Every request of the stream starts where a read of the socket does. -/
def Aligned (s : Source) (ts : List RequestText) : Prop :=
  ∀ ts₁ ts₂, ts₁ ++ ts₂ = ts → ts₂ ≠ [] →
    ∃ k, ((Source.drain BufferedReader.defaultBufsize)^[k] s).pending =
      ts₂.flatMap RequestText.text

/-- Nothing is read from the body of a request without one. -/
theorem Body.reads_limit_zero {σ : Type*} [Reader σ Byte ErrorCondition] (r : BufferedReader σ)
    (ds : List Bytes) : (Body.limit (.new r 0)).reads ds = some ([], .limit (.new r 0)) := by
  induction ds with
  | nil => rfl
  | cons d ds ih =>
    have hread : (Body.limit (.new r 0)).read d =
        some (⟨0, some .closed⟩, d, .limit (.new r 0)) := rfl
    rw [reads, hread, Option.bind_some]
    dsimp only
    rw [ih]
    rfl

section

variable {srv : Server Source Sink}

/-- A turn at a request. -/
theorem serveTurn_text (hsrv : srv.Returning) {s : Serving Source Sink} {t : RequestText}
    (ht : t.Served srv.maxHeaderBytes) {rest : Bytes} (hs : s.conn.input.Prompt)
    (hout : s.conn.output.script = []) (hpending : s.conn.input.pending = t.text ++ rest) :
    ∃ s' r, srv.serveTurn s = some (.next s') ∧ s'.requests = s.requests ++ [t.request] ∧
      s'.conn.output.script = [] ∧ s'.conn.input = r.impl ∧ r.impl.Prompt ∧
      Reader.content r = rest ∧
      Takes (.new s.conn.input BufferedReader.defaultBufsize) t.text r := by
  have hready : (BufferedReader.new s.conn.input BufferedReader.defaultBufsize).Ready :=
    BufferedReader.ready_source hs (by decide)
  obtain ⟨r, hr, hc, ⟨bs, htakes⟩, hdecode⟩ := t.decode hready hpending ht.length
  rw [ht.noBody.messageBody] at hdecode
  have hmajor : t.request.version.major = 1 := by
    rw [RequestText.request, completeRequest_version]
    exact ht.major
  obtain ⟨s', hturn, hout'⟩ := Server.serveTurn_accepting hsrv (s := s) hout hmajor hdecode
  obtain ⟨req, body, body', ds, out, hdecode', hreads, hinput, hrequests⟩ :=
    Server.serveTurn_next hturn
  cases hdecode.symm.trans hdecode'
  rw [Body.reads_limit_zero] at hreads
  cases hreads
  -- The rest is still there to be read, so what was taken is the text.
  have hbs : bs = t.text := by
    have h := htakes.content_eq
    rw [hc, BufferedReader.content_eq] at h
    exact (List.append_cancel_right (hpending.symm.trans h)).symm
  exact ⟨s', r, hturn, hrequests, hout', hinput, hr.prompt, hc, hbs ▸ htakes⟩

/-- A turn at the end of the stream. -/
theorem serveTurn_end (srv : Server Source Sink) {s : Serving Source Sink}
    (hs : s.conn.input.Prompt) (hpending : s.conn.input.pending = []) :
    ∃ err s', srv.serveTurn s = some (.done (err, s')) := by
  have hready : (BufferedReader.new s.conn.input BufferedReader.defaultBufsize).Ready :=
    BufferedReader.ready_source hs (by decide)
  have hcontent : Reader.content (BufferedReader.new s.conn.input BufferedReader.defaultBufsize) =
      [] := hpending
  have hline : requestLine (cutLine crlf (Reader.content
      (BufferedReader.new s.conn.input BufferedReader.defaultBufsize))).1 = some (.error .closed) := by
    rw [hcontent]
    rfl
  obtain ⟨conn, hdecode⟩ := decodeWith_error requestLine completeRequest srv.maxHeaderBytes hready
    hline
  exact ⟨_, _, Option.bind_eq_some_iff.2 ⟨_, hdecode, rfl⟩⟩

/-! ## Aligned streams -/

theorem RequestText.text_ne_nil (t : RequestText) : t.text ≠ [] := by
  rw [text, FieldsText.textOf, List.append_assoc]
  exact List.append_ne_nil_of_right_ne_nil _ (List.append_ne_nil_of_left_ne_nil crlf_ne_nil _)

/-- What is left to be read behind the first request of an aligned stream is left in the socket. -/
theorem Aligned.pending_eq {s : Source} {t : RequestText} {ts : List RequestText}
    (h : Aligned s (t :: ts)) {r : BufferedReader Source}
    (htakes : Takes (.new s BufferedReader.defaultBufsize) t.text r)
    (hc : Reader.content r = ts.flatMap RequestText.text) :
    r.impl.pending = ts.flatMap RequestText.text := by
  rw [← hc, BufferedReader.content_eq]
  by_cases hts : ts = []
  · rw [hts, BufferedReader.content_eq] at hc
    rw [(List.append_eq_nil_iff.1 hc).1]
    rfl
  · obtain ⟨k, hk⟩ := h [t] ts rfl hts
    rw [htakes.buf_eq_nil (Nat.zero_lt_succ _) (hc.trans hk.symm)]
    rfl

/-- The stream is aligned from the second request on, if it is from the first. -/
theorem Aligned.tail {s : Source} {t : RequestText} {ts : List RequestText}
    (h : Aligned s (t :: ts)) {j : ℕ}
    (hj : ((Source.drain BufferedReader.defaultBufsize)^[j] s).pending =
      ts.flatMap RequestText.text) :
    Aligned ((Source.drain BufferedReader.defaultBufsize)^[j] s) ts := by
  rintro ts₁ ts₂ rfl hne
  rcases ts₁ with _ | ⟨t₁, ts₁⟩
  · exact ⟨0, hj⟩
  · obtain ⟨k, hk⟩ := h (t :: t₁ :: ts₁) ts₂ rfl hne
    -- Less is left than after `j` reads.
    have hle : j ≤ k := by
      by_contra hlt
      have hlen := (Source.drains_pending_suffix_of_le
        (n := BufferedReader.defaultBufsize) s (Nat.le_of_not_le hlt)).length_le
      have hpos := List.length_pos_iff.2 t₁.text_ne_nil
      rw [hk, hj] at hlen
      simp only [List.cons_append, List.flatMap_cons, List.flatMap_append,
        List.length_append] at hlen
      omega
    obtain ⟨m, rfl⟩ := Nat.exists_eq_add_of_le' hle
    exact ⟨m, by rw [← hk, Function.iterate_add_apply]⟩

/-- Requests of an aligned stream are decoded, all of them and in order. -/
theorem returns_of_aligned (hsrv : srv.Returning) {ts : List RequestText}
    (hts : ∀ t ∈ ts, t.Served srv.maxHeaderBytes) {s : Serving Source Sink}
    (hs : s.conn.input.Prompt) (hout : s.conn.output.script = [])
    (hpending : s.conn.input.pending = ts.flatMap RequestText.text)
    (haligned : Aligned s.conn.input ts) :
    ∃ err s', Loop.Returns srv.serveTurn s (err, s') ∧
      s'.requests = s.requests ++ ts.map RequestText.request := by
  induction ts generalizing s with
  | nil =>
    obtain ⟨err, s', hturn⟩ := serveTurn_end srv hs hpending
    refine ⟨err, s', .done hturn, ?_⟩
    rw [Server.serveTurn_done hturn, List.map_nil, List.append_nil]
  | cons t ts ih =>
    rw [List.forall_mem_cons] at hts
    obtain ⟨s₁, r, hturn, hrequests, hout₁, hinput, hprompt, hc, htakes⟩ :=
      serveTurn_text hsrv hts.1 hs hout hpending
    -- The request ends where a read does: nothing behind it is lost with the buffer.
    have hpending₁ := haligned.pending_eq htakes hc
    obtain ⟨j, hj, -⟩ := htakes.drains (Nat.zero_lt_succ _)
    have haligned₁ : Aligned r.impl ts := by
      rw [hj] at hpending₁ ⊢
      exact haligned.tail hpending₁
    rw [← hinput] at hprompt hpending₁ haligned₁
    obtain ⟨err, s', hreturns, hrequests'⟩ := ih hts.2 hprompt hout₁ hpending₁ haligned₁
    refine ⟨err, s', .next hturn hreturns, ?_⟩
    rw [hrequests', hrequests, List.map_cons, List.append_assoc, List.singleton_append]

/-! ## Streams that are not aligned -/

/-- The end of the texts of requests starts within the text of one, if it is not empty. -/
theorem suffix_texts_cases {u : Bytes} {ts : List RequestText}
    (h : u <:+ ts.flatMap RequestText.text) (hne : u ≠ []) :
    ∃ ts₁ t ts₂ v, ts = ts₁ ++ t :: ts₂ ∧ v <:+ t.text ∧ v ≠ [] ∧
      u = v ++ ts₂.flatMap RequestText.text := by
  induction ts with
  | nil => exact absurd (List.suffix_nil.1 h) hne
  | cons t ts ih =>
    rw [List.flatMap_cons] at h
    rcases suffix_append_cases h with h | ⟨v, hv, hvne, rfl⟩
    · obtain ⟨ts₁, t', ts₂, v, rfl, hv⟩ := ih h
      exact ⟨t :: ts₁, t', ts₂, v, rfl, hv⟩
    · exact ⟨[], t, ts, v, rfl, hv, hvne, rfl⟩

/-- A turn within the text of a request that goes on has decoded another one, and does not go behind
    the text. -/
theorem serveTurn_cut {s s' : Serving Source Sink} {t : RequestText}
    (ht : t.Served srv.maxHeaderBytes) (hs : s.conn.input.Prompt) {v rest : Bytes}
    (hv : v <:+ t.text) (hne : v ≠ []) (hpending : s.conn.input.pending = v ++ rest)
    (h : srv.serveTurn s = some (.next s')) :
    ∃ req, s'.requests = s.requests ++ [req] ∧ (req = t.request → v = t.text) ∧
      s'.conn.input.Prompt ∧ s'.conn.input.pending <:+ rest := by
  have hready : (BufferedReader.new s.conn.input BufferedReader.defaultBufsize).Ready :=
    BufferedReader.ready_source hs (by decide)
  obtain ⟨req, body, body', ds, out, hdecode, hreads, hinput, hrequests⟩ := Server.serveTurn_next h
  obtain ⟨heq, r, hr, hc, rfl⟩ := t.decode_cut ht.noBody hready hv hne hpending ht.length hdecode
  rw [Body.reads_limit_zero] at hreads
  cases hreads
  refine ⟨req, hrequests, heq, ?_, ?_⟩
  · rw [hinput]
    exact hr.prompt
  · rw [hinput, ← hc]
    exact List.suffix_append _ _

/-- No more requests are decoded than there are texts that have not ended. -/
theorem length_requests_le {ts : List RequestText} (hts : ∀ t ∈ ts, t.Served srv.maxHeaderBytes)
    {s s' : Serving Source Sink} {err : ErrorCondition} (hs : s.conn.input.Prompt)
    (hpending : s.conn.input.pending <:+ ts.flatMap RequestText.text)
    (h : Loop.Returns srv.serveTurn s (err, s')) :
    s'.requests.length ≤ s.requests.length + ts.length := by
  refine h.invariant (fun x => x.conn.input.Prompt ∧ ∃ ts' : List RequestText,
      (∀ t ∈ ts', t.Served srv.maxHeaderBytes) ∧
      x.conn.input.pending <:+ ts'.flatMap RequestText.text ∧
      x.requests.length + ts'.length ≤ s.requests.length + ts.length)
    (fun q => q.2.requests.length ≤ s.requests.length + ts.length) ?_ ?_ ⟨hs, ts, hts, hpending, le_rfl⟩
  · rintro x x' ⟨hx, ts', hts', hpending', hle⟩ hturn
    by_cases hnil : x.conn.input.pending = []
    · obtain ⟨err', y, hdone⟩ := serveTurn_end srv hx hnil
      cases hturn.symm.trans hdone
    -- A turn uses up the text it starts in, wherever in it that is.
    obtain ⟨ts₁, t, ts₂, v, rfl, hv, hvne, hpend⟩ := suffix_texts_cases hpending' hnil
    rw [List.forall_mem_append, List.forall_mem_cons] at hts'
    obtain ⟨req, hrequests, -, hx', hpend'⟩ := serveTurn_cut hts'.2.1 hx hv hvne hpend hturn
    refine ⟨hx', ts₂, hts'.2.2, hpend', ?_⟩
    rw [hrequests]
    simp only [List.length_append, List.length_cons, List.length_nil] at hle ⊢
    omega
  · rintro x ⟨err', x'⟩ ⟨-, ts', -, -, hle⟩ hturn
    dsimp only
    rw [Server.serveTurn_done hturn]
    omega

theorem requests_prefix_of_returns {s s' : Serving Source Sink} {err : ErrorCondition}
    (h : Loop.Returns srv.serveTurn s (err, s')) : s.requests <+: s'.requests := by
  refine h.invariant (fun x => s.requests <+: x.requests) (fun q => s.requests <+: q.2.requests)
    ?_ ?_ List.prefix_rfl
  · intro x x' hx hturn
    obtain ⟨req, -, -, -, -, -, -, -, hrequests⟩ := Server.serveTurn_next hturn
    rw [hrequests]
    exact hx.trans (List.prefix_append _ _)
  · rintro x ⟨err', x'⟩ hx hturn
    dsimp only
    rwa [Server.serveTurn_done hturn]

/-- Not all requests are decoded if the front of the first one is missing. -/
theorem requests_ne_of_cut {t : RequestText} {ts : List RequestText}
    (hts : ∀ t' ∈ t :: ts, t'.Served srv.maxHeaderBytes) {s s' : Serving Source Sink}
    {err : ErrorCondition} (hs : s.conn.input.Prompt)
    (hpending : s.conn.input.pending <:+ (t :: ts).flatMap RequestText.text)
    (hne : s.conn.input.pending ≠ (t :: ts).flatMap RequestText.text)
    (h : Loop.Returns srv.serveTurn s (err, s')) :
    s'.requests ≠ s.requests ++ (t :: ts).map RequestText.request := by
  intro hrequests
  rw [List.forall_mem_cons] at hts
  rw [List.flatMap_cons] at hpending hne
  rcases suffix_append_cases hpending with hpend | ⟨v, hv, hvne, hpend⟩
  · -- A whole request is missing.
    have hlen := length_requests_le hts.2 hs hpend h
    rw [hrequests, List.length_append, List.length_map, List.length_cons] at hlen
    omega
  · rcases h with hturn | ⟨hturn, h⟩
    · rw [Server.serveTurn_done hturn] at hrequests
      exact List.cons_ne_nil _ _ (List.self_eq_append_right.1 hrequests)
    · -- The request decoded next stays where that of the text should be.
      obtain ⟨req, hreq, heq, -⟩ := serveTurn_cut hts.1 hs hv hvne hpend hturn
      have hfront := requests_prefix_of_returns h
      rw [hrequests, hreq, List.prefix_append_right_inj, List.map_cons,
        List.cons_prefix_cons] at hfront
      refine hne ?_
      rw [hpend, heq hfront.1]

/-- If all requests are decoded, the stream is aligned. -/
theorem aligned_of_returns (hsrv : srv.Returning) {ts : List RequestText}
    (hts : ∀ t ∈ ts, t.Served srv.maxHeaderBytes) {s s' : Serving Source Sink}
    {err : ErrorCondition} (hs : s.conn.input.Prompt) (hout : s.conn.output.script = [])
    (hpending : s.conn.input.pending = ts.flatMap RequestText.text)
    (h : Loop.Returns srv.serveTurn s (err, s'))
    (hrequests : s'.requests = s.requests ++ ts.map RequestText.request) :
    Aligned s.conn.input ts := by
  induction ts generalizing s with
  | nil =>
    intro ts₁ ts₂ heq hne
    exact absurd (List.append_eq_nil_iff.1 heq).2 hne
  | cons t ts ih =>
    have hts' := (List.forall_mem_cons.1 hts).2
    obtain ⟨s₁, r, hturn, hrequests₁, hout₁, hinput, hprompt, hc, htakes⟩ :=
      serveTurn_text hsrv (hts t List.mem_cons_self) hs hout (hpending.trans List.flatMap_cons)
    rcases h with hdone | ⟨hnext, h⟩
    · cases hturn.symm.trans hdone
    cases hturn.symm.trans hnext
    rw [List.map_cons, ← List.singleton_append, ← List.append_assoc, ← hrequests₁] at hrequests
    rw [← hinput] at hprompt
    -- Were the front of the next text missing, not all requests would be decoded.
    have hpending₁ : s₁.conn.input.pending = ts.flatMap RequestText.text := by
      have hsuffix : s₁.conn.input.pending <:+ ts.flatMap RequestText.text := by
        rw [hinput, ← hc]
        exact List.suffix_append _ _
      rcases ts with _ | ⟨t₁, ts⟩
      · exact List.suffix_nil.1 hsuffix
      · by_contra hne
        exact requests_ne_of_cut hts' hprompt hsuffix hne h hrequests
    have haligned := ih hts' hprompt hout₁ hpending₁ h hrequests
    obtain ⟨j, hj, -⟩ := htakes.drains (Nat.zero_lt_succ _)
    intro ts₁ ts₂ heq hne
    -- The boundaries of the rest of the stream are those of the stream, `j` reads later.
    rcases ts₁ with _ | ⟨t₁, ts₁⟩
    · exact ⟨0, by rw [List.nil_append] at heq; rw [heq]; exact hpending⟩
    · obtain ⟨k, hk⟩ := haligned ts₁ ts₂ (List.cons.inj heq).2 hne
      refine ⟨k + j, ?_⟩
      rw [hinput, hj] at hk
      rw [Function.iterate_add_apply]
      exact hk

end

/-- For every list of requests without bodies, sent back to back on a connection, and however the
    reads of the socket split the stream: the loop of `serve_connection` decodes these requests, all
    of them and in order, if and only if each of them starts where a read does. -/
theorem serveConnection_decodes_iff (srv : Server Source Sink) (hsrv : srv.Returning)
    (conn : Conn Source Sink) (hs : conn.input.Prompt) (hout : conn.output.script = [])
    (ts : List RequestText) (hts : ∀ t ∈ ts, t.Served srv.maxHeaderBytes)
    (hpending : conn.input.pending = ts.flatMap RequestText.text) :
    (∃ s, srv.ServesConnection conn s ∧ s.requests = ts.map RequestText.request) ↔
      Aligned conn.input ts := by
  constructor
  · rintro ⟨s, ⟨err, h⟩, hrequests⟩
    exact aligned_of_returns hsrv hts (s := ⟨conn, []⟩) hs hout hpending h hrequests
  · intro haligned
    obtain ⟨err, s, h, hrequests⟩ :=
      returns_of_aligned hsrv hts (s := ⟨conn, []⟩) hs hout hpending haligned
    exact ⟨s, ⟨err, h⟩, hrequests⟩

/-- A server whose handlers do nothing. -/
def Server.silent (maxHeaderBytes : ℕ) : Server Source Sink where
  maxHeaderBytes := maxHeaderBytes
  iteration := ⟨KeyedMap.entries, fun _ => .refl _⟩
  handler _ body rw := some (body, rw)
  handler_reads h := by
    cases h
    exact ⟨[], [], rfl⟩

theorem Server.silent_returning (maxHeaderBytes : ℕ) : (Server.silent maxHeaderBytes).Returning :=
  fun _ body rw hw => ⟨body, rw, rfl, hw⟩

/-- The text of `GET /`, without headers. -/
def RequestText.getRoot : RequestText where
  fields := []
  fields_colon := FieldsText.nil_colon
  fields_crlf := FieldsText.nil_crlf
  method := .get
  target := sv "/"
  uri := { path := sv "/" }
  major := sv "1"
  minor := sv "1"
  method_ne_none := by decide
  target_space := by decide
  target_crlf := by decide
  target_uri := by decide
  major_isNumber := isNumber_one
  minor_isNumber := isNumber_one

theorem RequestText.getRoot_served : getRoot.Served 8192 :=
  ⟨by decide, ⟨by decide, by decide⟩, by decide⟩

/-- Two requests, each of them in a read of its own. -/
theorem serveConnection_decodes_iff_two :
    let t := RequestText.getRoot
    ∃ s, (Server.silent 8192).ServesConnection
      ⟨⟨t.text ++ t.text, [⟨t.text.length, none⟩], some .closed⟩, .empty⟩ s ∧
      s.requests = [t.request, t.request] := by
  intro t
  have hts : ∀ t' ∈ [t, t], t'.Served 8192 := by
    simpa using RequestText.getRoot_served
  refine (serveConnection_decodes_iff _ (Server.silent_returning 8192) _ ?_ rfl [t, t] hts ?_).2 ?_
  · simp [Source.Prompt, t, RequestText.text_ne_nil, List.length_pos_iff]
  · simp
  · rintro (_ | ⟨t₁, _ | ⟨t₂, ts₁⟩⟩) ts₂ heq hne
    · cases heq
      exact ⟨0, by decide⟩
    · cases heq
      refine ⟨1, ?_⟩
      rw [Function.iterate_one, Source.drain_pending]
      decide
    · exact absurd (List.append_eq_nil_iff.1 (List.cons.inj (List.cons.inj heq).2).2).2 hne

/-- Two requests in one read: the second one is lost. -/
theorem serveConnection_loses_second :
    let t := RequestText.getRoot
    ¬∃ s, (Server.silent 8192).ServesConnection
      ⟨⟨t.text ++ t.text, [], some .closed⟩, .empty⟩ s ∧ s.requests = [t.request, t.request] := by
  rintro t ⟨s, ⟨err, h⟩, hrequests⟩
  have hts : ∀ t' ∈ [t, t], t'.Served 8192 := by
    simpa using RequestText.getRoot_served
  have haligned := aligned_of_returns (Server.silent_returning 8192) hts
    (by simp [Source.Prompt]) rfl (by simp) h hrequests
  obtain ⟨k, hk⟩ := haligned [t] [t] rfl (List.cons_ne_nil _ _)
  rcases k with _ | k
  · exact absurd hk (by decide)
  · -- The first read takes both.
    have hsuffix := Source.drains_pending_suffix (n := BufferedReader.defaultBufsize)
      (Source.drain BufferedReader.defaultBufsize ⟨t.text ++ t.text, [], some .closed⟩) k
    rw [Function.iterate_succ_apply] at hk
    rw [hk, Source.drain_pending] at hsuffix
    exact absurd hsuffix (by decide)

end Cppnet.Http
