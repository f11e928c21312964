import Cppnet.Http.Decode

/-!
# Messages cut short

The decoders know no end of the stream: `readline` takes what there is of a line for a line,
and, where there is nothing left, finds an empty one. A message that ends early is thus taken
for a complete one (`decoders_accept_cut_short`), unless there is something else about it: its
first line, or what there is of it, is in error, or its headers are too long
(`decoders_reject_cut_iff`).
-/

namespace Cppnet.Http

open Lib Io

/-- A stream with a first line, lines of headers, all of them ended and none of these empty, and
    the empty line behind them. -/
def Complete (s : Bytes) : Prop :=
  ∃ (first : Bytes) (lines : List Bytes) (rest : Bytes),
    s = first ++ crlf ++ (lines.flatMap (· ++ crlf) ++ (crlf ++ rest)) ∧ IsLine crlf first ∧
      ∀ l ∈ lines, IsLine crlf l ∧ l ≠ []

/-- The first line of a stream, or what there is of it. -/
def firstLineOf (s : Bytes) : Bytes := (cutLine crlf s).1

/-- The lines of headers of a stream, up to the empty one or to the end. -/
def headerLinesOf (s : Bytes) : List Bytes := (paragraph crlf (cutLine crlf s).2).1

theorem complete_iff {s : Bytes} : Complete s ↔ (paragraph crlf (cutLine crlf s).2).2.isSome := by
  have hcrlf := crlf_ne_nil
  constructor
  · rintro ⟨first, lines, rest, rfl, hfirst, hlines⟩
    rw [cutLine_append hfirst, paragraph_lines hcrlf hlines]
    rfl
  · intro h
    obtain ⟨first, s', rfl, hfirst⟩ :=
      exists_isLine hcrlf (isInfix_of_isSome_paragraph_cutLine hcrlf h)
    rw [cutLine_append hfirst] at h
    obtain ⟨rest, hrest⟩ := Option.isSome_iff_exists.1 h
    obtain ⟨hs', hlines⟩ := eq_of_paragraph_eq_some hcrlf (Prod.ext rfl hrest)
    exact ⟨first, _, rest, by rw [← hs'], hfirst, hlines⟩

/-- A decoder accepts `s` only if it is complete, and reports an error if it is not. -/
structure AcceptsOnlyComplete {α ε : Type*} (outcome : Option (Except ε α)) (s : Bytes) : Prop where
  complete : ∀ a, outcome = some (.ok a) → Complete s
  error : ¬Complete s → ∃ e, outcome = some (.error e)

section

variable {σ μ : Type*} [Reader σ Byte ErrorCondition] [LawfulReader σ] [PromptReader σ]
  {r : BufferedReader σ}

/-- When a decoder accepts its stream only if it is complete. -/
theorem acceptsOnlyComplete_iff (hr : r.Ready)
    (firstLine : Bytes → Option (Except ErrorCondition μ)) (complete : μ → Headers → μ)
    (maxHeaderBytes : ℕ) :
    AcceptsOnlyComplete (decodeWith (parseFirstLine firstLine) complete r maxHeaderBytes)
        (Reader.content r) ↔
      Complete (Reader.content r) ∨
        (∃ err, firstLine (firstLineOf (Reader.content r)) = some (.error err)) ∨
        (∃ message, firstLine (firstLineOf (Reader.content r)) = some (.ok message)) ∧
          maxHeaderBytes ≤ linesLength (headerLinesOf (Reader.content r)) := by
  constructor
  · intro h
    by_cases hc : Complete (Reader.content r)
    · exact .inl hc
    right
    -- The stream is cut, so there is an error: in the first line, or for the length of the headers.
    obtain ⟨e, he⟩ := h.error hc
    rcases hline : firstLine (firstLineOf (Reader.content r)) with _ | err | message
    · rw [decodeWith_none firstLine complete maxHeaderBytes hr hline] at he
      cases he
    · exact .inl ⟨err, rfl⟩
    · refine .inr ⟨⟨message, rfl⟩, Nat.not_lt.1 fun hlen => ?_⟩
      obtain ⟨r', -, -, -, hok⟩ := decodeWith_ok firstLine complete maxHeaderBytes hr hline hlen
      rw [hok] at he
      cases he
  · rintro (hc | ⟨err, herr⟩ | ⟨⟨message, hline⟩, hlong⟩)
    · exact ⟨fun _ _ => hc, fun h => absurd hc h⟩
    · obtain ⟨conn, h⟩ := decodeWith_error firstLine complete maxHeaderBytes hr herr
      exact ⟨fun a ha => (by cases h.symm.trans ha), fun _ => ⟨_, h⟩⟩
    · obtain ⟨conn, h⟩ := decodeWith_tooLarge firstLine complete maxHeaderBytes hr hline hlong
      exact ⟨fun a ha => (by cases h.symm.trans ha), fun _ => ⟨_, h⟩⟩

/-- A stream that is not complete is accepted, with a first line that is no error, and headers
    that are not too long. -/
theorem not_acceptsOnlyComplete (hr : r.Ready)
    {firstLine : Bytes → Option (Except ErrorCondition μ)} {message : μ} {maxHeaderBytes : ℕ}
    (complete : μ → Headers → μ) (hc : ¬Complete (Reader.content r))
    (hline : firstLine (firstLineOf (Reader.content r)) = some (.ok message))
    (hlen : linesLength (headerLinesOf (Reader.content r)) < maxHeaderBytes) :
    ¬AcceptsOnlyComplete (decodeWith (parseFirstLine firstLine) complete r maxHeaderBytes)
      (Reader.content r) := by
  intro h
  obtain ⟨r', -, -, -, hok⟩ := decodeWith_ok firstLine complete maxHeaderBytes hr hline hlen
  exact hc (h.complete _ hok)

end

/-- For every stream, splitting, end and capacity: the decoders accept the stream only if it is
    complete exactly when it is, or when what there is of the first line is in error, or when
    it is not but what there is of the headers is too long. -/
theorem decoders_reject_cut_iff (s : Source) (hs : s.Prompt) (capacity : ℕ) (hcap : 0 < capacity)
    (maxHeaderBytes : ℕ) :
    (AcceptsOnlyComplete (requestDecode (.new s capacity) maxHeaderBytes) s.pending ↔
      Complete s.pending ∨
        (∃ err, requestLine (firstLineOf s.pending) = some (.error err)) ∨
        (∃ req, requestLine (firstLineOf s.pending) = some (.ok req)) ∧
          maxHeaderBytes ≤ linesLength (headerLinesOf s.pending)) ∧
    (AcceptsOnlyComplete (responseDecode (.new s capacity) maxHeaderBytes) s.pending ↔
      Complete s.pending ∨
        (∃ err, statusLine (firstLineOf s.pending) = .error err) ∨
        (∃ resp, statusLine (firstLineOf s.pending) = .ok resp) ∧
          maxHeaderBytes ≤ linesLength (headerLinesOf s.pending)) := by
  have hr : (BufferedReader.new s capacity).Ready := BufferedReader.ready_source hs hcap
  constructor
  · exact acceptsOnlyComplete_iff hr requestLine completeRequest maxHeaderBytes
  · have h := acceptsOnlyComplete_iff hr (fun line => some (statusLine line))
      (fun resp headers => { resp with headers }) maxHeaderBytes
    simp only [Option.some.injEq] at h
    exact h

/-- A first line that is in error, cut short: both decoders report the error. -/
theorem decoders_reject_cut_iff_get :
    AcceptsOnlyComplete (requestDecode (.new (⟨sv "GET", [⟨2, none⟩], none⟩ : Source) 4) 100)
        (sv "GET") ∧
      AcceptsOnlyComplete (responseDecode (.new (⟨sv "GET", [⟨2, none⟩], none⟩ : Source) 4) 100)
        (sv "GET") := by
  have h := decoders_reject_cut_iff ⟨sv "GET", [⟨2, none⟩], none⟩ (by decide) 4 (by decide) 100
  exact ⟨h.1.2 (.inr (.inl ⟨_, rfl⟩)), h.2.2 (.inr (.inl ⟨_, rfl⟩))⟩

/-- A request cut within its first header, and a response cut within its status line: both
    are accepted. -/
theorem decoders_accept_cut_short :
    ¬AcceptsOnlyComplete (requestDecode
        (.new (⟨sv "GET / HTTP/1.1\r\nHos", [], some .closed⟩ : Source) 1024) 8192)
        (sv "GET / HTTP/1.1\r\nHos") ∧
      ¬AcceptsOnlyComplete (responseDecode
        (.new (⟨sv "HTTP/1.1 200 ", [], none⟩ : Source) 1024) 8192) (sv "HTTP/1.1 200 ") := by
  have hreq : requestLine (firstLineOf (sv "GET / HTTP/1.1\r\nHos")) =
      some (.ok ⟨.get, ⟨1, 1⟩, { path := sv "/" }, .empty⟩) := by decide
  have hresp : some (statusLine (firstLineOf (sv "HTTP/1.1 200 "))) =
      some (.ok ⟨⟨1, 1⟩, 200, .empty⟩) := by decide
  have hready : ∀ s : Source, s.script = [] → (BufferedReader.new s 1024).Ready := fun s hs =>
    BufferedReader.ready_source (by simp [Source.Prompt, hs]) (by decide)
  exact ⟨not_acceptsOnlyComplete (hready _ rfl) _ (complete_iff.not.2 (by decide)) hreq (by decide),
    not_acceptsOnlyComplete (hready _ rfl) _ (complete_iff.not.2 (by decide)) hresp (by decide)⟩

end Cppnet.Http
