import Cppnet.Http.Text

/-!
# Requests that are cut at the front

What `request_decode` makes of the end of the text of a request, when the front of it is missing: an
error, or another request than that of the text (`RequestText.decode_cut`). In both cases, nothing
behind the text is taken for a part of it.

The end of the text starts within a line. If this is the request line, it has no method, or not both
of its spaces (`requestLine_cut`); if it is a line of the headers, the ones before are missing.
-/

namespace Cppnet.Http

open Lib Io Util

/-! ## Ends of texts -/

theorem suffix_append_cases {α : Type*} {s a b : List α} (h : s <:+ a ++ b) :
    s <:+ b ∨ ∃ a', a' <:+ a ∧ a' ≠ [] ∧ s = a' ++ b := by
  obtain ⟨p, hp⟩ := h
  rcases List.append_eq_append_iff.1 hp with ⟨a', rfl, rfl⟩ | ⟨b', rfl, rfl⟩
  · by_cases hne : a' = []
    · exact .inl (by rw [hne]; exact List.suffix_rfl)
    · exact .inr ⟨a', List.suffix_append p a', hne, rfl⟩
  · exact .inl (List.suffix_append b' s)

theorem suffix_crlf_cases {s : Bytes} (h : s <:+ crlf) (hne : s ≠ []) : s = [10] ∨ s = crlf := by
  rcases List.suffix_cons_iff.1 h with rfl | h
  · exact .inr rfl
  rcases List.suffix_cons_iff.1 h with rfl | h
  · exact .inl rfl
  · exact absurd (List.suffix_nil.1 h) hne

/-- The end of lines up to an empty one: it starts at a line feed, with the empty line, or within a
    line. -/
theorem suffix_lines_cases {v : Bytes} {ls : List Bytes}
    (h : v <:+ ls.flatMap (· ++ crlf) ++ crlf) (hne : v ≠ []) :
    (∃ x, v = 10 :: x) ∨ v = crlf ∨ ∃ ls₁ l₀ ls₂ l, ls = ls₁ ++ l₀ :: ls₂ ∧ l <:+ l₀ ∧
      v = l ++ crlf ++ (ls₂.flatMap (· ++ crlf) ++ crlf) := by
  induction ls with
  | nil =>
    rcases suffix_crlf_cases h hne with rfl | rfl
    · exact .inl ⟨_, rfl⟩
    · exact .inr (.inl rfl)
  | cons l₀ ls ih =>
    rw [List.flatMap_cons, List.append_assoc] at h
    rcases suffix_append_cases h with h | ⟨w, hw, hwne, rfl⟩
    · rcases ih h with h | h | ⟨ls₁, l₀', ls₂, l, rfl, hl, hv⟩
      · exact .inl h
      · exact .inr (.inl h)
      · exact .inr (.inr ⟨l₀ :: ls₁, l₀', ls₂, l, rfl, hl, hv⟩)
    · rcases suffix_append_cases hw with hw | ⟨l, hl, -, rfl⟩
      · rcases suffix_crlf_cases hw hwne with rfl | rfl
        · exact .inl ⟨_, rfl⟩
        · exact .inr (.inr ⟨[], l₀, ls, [], rfl, List.nil_suffix, rfl⟩)
      · exact .inr (.inr ⟨[], l₀, ls, l, rfl, hl, rfl⟩)

/-- A text that starts with a line feed starts with a line that does. -/
theorem cutLine_lf (s : Bytes) : ∃ line, (cutLine crlf (10 :: s)).1 = 10 :: line := by
  by_cases h : crlf <:+: 10 :: s
  · obtain ⟨l, r, hs, hl⟩ := exists_isLine crlf_ne_nil h
    rcases l with _ | ⟨c, l⟩
    · exact absurd (List.cons.inj hs).1 (by decide)
    · rw [hs, cutLine_append hl]
      exact ⟨l, by rw [(List.cons.inj hs).1]⟩
  · rw [cutLine_of_no_end h]
    exact ⟨s, rfl⟩

/-! ## Request lines -/

/-- Without a method before its first space, a line is in error. -/
theorem requestLine_error_of_method {line : Bytes}
    (h : ∀ word rest, line = word ++ ch ' ' :: rest → ch ' ' ∉ word → parseMethod word = .none) :
    ∃ err, requestLine line = some (.error err) := by
  rw [requestLine]
  split_ifs
  · exact ⟨_, rfl⟩
  rcases find_zero_cases line (ch ' ') with ⟨-, hfind⟩ | ⟨word, rest, rfl, hword, hfind⟩
  · rw [hfind]
    exact ⟨_, rfl⟩
  · rw [hfind]
    dsimp only
    rw [List.take_left, if_pos (h word rest rfl hword)]
    exact ⟨_, rfl⟩

/-- A line that starts with a line feed is in error. -/
theorem requestLine_lf (line : Bytes) : ∃ err, requestLine (10 :: line) = some (.error err) := by
  refine requestLine_error_of_method fun word rest hline hword => ?_
  rcases word with _ | ⟨c, word⟩
  · exact absurd (List.cons.inj hline).1 (by decide)
  · refine parseMethod_of_mem (c := 10) (by decide) ?_
    rw [(List.cons.inj hline).1]
    exact List.mem_cons_self

/-- A line with one space is in error. -/
theorem requestLine_one_space {word rest : Bytes} (hword : ch ' ' ∉ word) (hrest : ch ' ' ∉ rest) :
    ∃ err, requestLine (word ++ ch ' ' :: rest) = some (.error err) := by
  have hnone : find (word ++ ch ' ' :: rest) (ch ' ') (word.length + 1) = none := by
    simpa using find_eq_none (word ++ [ch ' ']) hrest
  rw [requestLine, if_neg (by simp), find_zero_eq_some rest hword]
  dsimp only
  split_ifs
  · exact ⟨_, rfl⟩
  · rw [hnone]
    exact ⟨_, rfl⟩

/-- The end of the name of a method is no method. -/
theorem parseMethod_cut (m : RequestMethod) {s : Bytes} (h : s <:+ methodString m)
    (hne : s ≠ methodString m) : parseMethod s = .none := by
  have hall : ∀ s ∈ (methodString m).tails, s ≠ methodString m → parseMethod s = .none := by
    cases m <;> decide
  exact hall s ((List.mem_tails _ _).2 h) hne

/-- The end of a request line is in error. -/
theorem RequestText.requestLine_cut (t : RequestText) {line : Bytes} (h : line <:+ t.firstLine)
    (hne : line ≠ t.firstLine) : ∃ err, requestLine line = some (.error err) := by
  have hversion : ch ' ' ∉ sv "HTTP/" ++ (t.major ++ ch '.' :: t.minor) := by
    simp only [List.mem_append, List.mem_cons, not_or]
    exact ⟨by decide, t.major_isNumber.isNumeral.not_mem (by decide), by decide,
      t.minor_isNumber.isNumeral.not_mem (by decide)⟩
  rcases suffix_append_cases h with h | ⟨word, hword, -, rfl⟩
  · rcases List.suffix_cons_iff.1 h with rfl | h
    · -- It starts with the space behind the method.
      refine requestLine_error_of_method fun word rest hline hword => ?_
      rw [eq_of_append_cons_eq hline.symm hword List.not_mem_nil]
      rfl
    rcases suffix_append_cases h with h | ⟨target, htarget, -, rfl⟩
    · rcases List.suffix_cons_iff.1 h with rfl | h
      · exact requestLine_one_space List.not_mem_nil hversion
      · refine requestLine_error_of_method fun word rest hline _ => ?_
        rw [hline] at h
        exact absurd (h.subset (List.mem_append_right _ List.mem_cons_self)) hversion
    · exact requestLine_one_space (fun hmem => t.target_space (htarget.subset hmem)) hversion
  · refine requestLine_error_of_method fun word' rest hline hword' => ?_
    have hspace : ch ' ' ∉ word := fun hmem =>
      (parseMethod_methodString t.method).2.1 (hword.subset hmem)
    rw [eq_of_append_cons_eq hline.symm hword' hspace]
    refine parseMethod_cut t.method hword fun heq => hne ?_
    rw [heq]
    rfl

/-! ## Headers -/

/-- The text of headers without the first lines. -/
def FieldsText.drop (t : FieldsText) (n : ℕ) : FieldsText :=
  ⟨t.fields.drop n, fun f hf => t.fields_colon f (List.mem_of_mem_drop hf),
    fun f hf => t.fields_crlf f (List.mem_of_mem_drop hf)⟩

theorem FieldsText.lines_drop (t : FieldsText) (n : ℕ) : (t.drop n).lines = t.lines.drop n :=
  List.map_drop

theorem FieldsText.NoBody.drop {t : FieldsText} (h : t.NoBody) (n : ℕ) : (t.drop n).NoBody := by
  have hsub : ∀ key, ((t.drop n).fieldsOf key).Sublist (t.fieldsOf key) := fun key =>
    (List.drop_sublist n t.fields).filter _
  refine ⟨fun f hf => h.contentLength f ((hsub _).subset hf), ?_⟩
  exact List.sublist_nil.1 (h.transferEncoding ▸ hsub _)

theorem FieldsText.lineFields_ne_nil {t : FieldsText} {l : Bytes} (hl : l ∈ t.lines) :
    lineFields l ≠ [] := by
  obtain ⟨f, hf, rfl⟩ := List.mem_map.1 hl
  have hline : f.1 ++ sv ": " ++ f.2 = f.1 ++ ch ':' :: (ch ' ' :: f.2) := by
    rw [List.append_assoc]
    rfl
  rw [hline, lineFields_append (t.fields_colon f hf)]
  exact fun h => List.splitOn_ne_nil _ _ (List.map_eq_nil_iff.1 h)

/-- With lines missing, there are fewer values. -/
theorem FieldsText.messageHeaders_ne {t : FieldsText} {ls₁ ls₂ : List Bytes} {l : Bytes}
    (h : t.lines = ls₁ ++ l :: ls₂) : messageHeaders ls₂ ≠ messageHeaders t.lines := by
  intro heq
  have hpos : 0 < (lineFields l).length :=
    List.length_pos_iff.2 (t.lineFields_ne_nil (h ▸ List.mem_append_right _ List.mem_cons_self))
  have hcount := congrArg KeyedMap.count heq
  rw [h, messageHeaders, messageHeaders, KeyedMap.count_addAll, KeyedMap.count_addAll,
    List.flatMap_append, List.flatMap_cons, List.length_append, List.length_append] at hcount
  omega

section Decode

variable {σ : Type*} [Reader σ Byte ErrorCondition] [LawfulReader σ] [PromptReader σ]
  {r : BufferedReader σ} {rest : Bytes} {maxHeaderBytes : ℕ} {req : ServerRequest} {body : Body σ}

/-- What is decoded from a line and headers without a body. -/
theorem FieldsText.NoBody.of_requestDecode {t : FieldsText} (ht : t.NoBody) (hr : r.Ready)
    {line : Bytes} (hline : IsLine crlf line) (hc : Reader.content r = t.textOf line ++ rest)
    (hlen : linesLength t.lines < maxHeaderBytes)
    (h : requestDecode r maxHeaderBytes = some (.ok (req, body))) :
    (∃ message, requestLine line = some (.ok message)) ∧ req.headers = messageHeaders t.lines ∧
      ∃ r', r'.Ready ∧ Reader.content r' = rest ∧ body = .limit (.new r' 0) := by
  have hcut : (cutLine crlf (Reader.content r)).1 = line := by
    rw [hc, textOf, List.append_assoc (line ++ crlf), cutLine_append hline]
  rcases hmessage : requestLine line with _ | err | message
  · have hdecode := decodeWith_none requestLine completeRequest maxHeaderBytes hr
      (by rw [hcut]; exact hmessage)
    cases h.symm.trans hdecode
  · obtain ⟨conn, hdecode⟩ := decodeWith_error requestLine completeRequest maxHeaderBytes hr
      (by rw [hcut]; exact hmessage)
    cases h.symm.trans hdecode
  · obtain ⟨r', hr', hc', -, hdecode⟩ := decodeWith_textOf t requestLine completeRequest hr hc hline
      hmessage hlen
    cases h.symm.trans hdecode
    exact ⟨⟨message, rfl⟩, completeRequest_headers _ _, r', hr', hc', ht.messageBody r'⟩

/-- What is decoded with the end of a request line is decoded with all of it. -/
theorem RequestText.decode_cut_firstLine (t : RequestText) (hbody : t.NoBody) (hr : r.Ready)
    {l : Bytes} (hl : l <:+ t.firstLine) (hc : Reader.content r = t.textOf l ++ rest)
    (hlen : linesLength t.lines < maxHeaderBytes)
    (h : requestDecode r maxHeaderBytes = some (.ok (req, body))) :
    l = t.firstLine ∧ ∃ r', r'.Ready ∧ Reader.content r' = rest ∧ body = .limit (.new r' 0) := by
  have hline : IsLine crlf l := isLine_crlf fun hcr =>
    t.isLine_firstLine.not_isInfix (hcr.trans hl.isInfix)
  obtain ⟨⟨message, hmessage⟩, -, hr'⟩ := hbody.of_requestDecode hr hline hc hlen h
  refine ⟨?_, hr'⟩
  by_contra hne
  obtain ⟨err, herr⟩ := t.requestLine_cut hl hne
  cases hmessage.symm.trans herr

/-- What is decoded from the end of a line of the headers on has fewer headers. -/
theorem RequestText.decode_cut_field (t : RequestText) (hbody : t.NoBody) (hr : r.Ready)
    {ls₁ ls₂ : List Bytes} {l₀ l : Bytes} (hlines : t.lines = ls₁ ++ l₀ :: ls₂) (hl : l <:+ l₀)
    (hc : Reader.content r = l ++ crlf ++ (ls₂.flatMap (· ++ crlf) ++ crlf) ++ rest)
    (hlen : linesLength t.lines < maxHeaderBytes)
    (h : requestDecode r maxHeaderBytes = some (.ok (req, body))) :
    req ≠ t.request ∧ ∃ r', r'.Ready ∧ Reader.content r' = rest ∧ body = .limit (.new r' 0) := by
  have hmem : l₀ ∈ t.lines := hlines ▸ List.mem_append_right _ List.mem_cons_self
  have hline : IsLine crlf l := isLine_crlf fun hcr =>
    (t.lines_ok l₀ hmem).1.not_isInfix (hcr.trans hl.isInfix)
  have hdrop : (t.toFieldsText.drop (ls₁.length + 1)).lines = ls₂ := by
    rw [FieldsText.lines_drop, hlines, drop_append_cons]
  have hlen' : linesLength ls₂ < maxHeaderBytes := by
    rw [hlines, linesLength, List.map_append, List.sum_append, List.map_cons, List.sum_cons] at hlen
    rw [linesLength]
    omega
  obtain ⟨-, hheaders, hr'⟩ := (hbody.drop (ls₁.length + 1)).of_requestDecode hr hline
    (by rw [FieldsText.textOf, hdrop]; exact hc) (by rw [hdrop]; exact hlen') h
  refine ⟨fun heq => FieldsText.messageHeaders_ne hlines ?_, hr'⟩
  rw [hdrop, heq, request, completeRequest_headers] at hheaders
  exact hheaders.symm

/-- What is decoded from the end of the text of a request without a body ends where the text does,
    and is not its request, unless it is all of the text. -/
theorem RequestText.decode_cut (t : RequestText) (hbody : t.NoBody) (hr : r.Ready) {v : Bytes}
    (hv : v <:+ t.text) (hne : v ≠ []) (hc : Reader.content r = v ++ rest)
    (hlen : linesLength t.lines < maxHeaderBytes)
    (h : requestDecode r maxHeaderBytes = some (.ok (req, body))) :
    (req = t.request → v = t.text) ∧
      ∃ r', r'.Ready ∧ Reader.content r' = rest ∧ body = .limit (.new r' 0) := by
  have herror : ¬∃ err, requestLine (cutLine crlf (Reader.content r)).1 = some (.error err) := by
    rintro ⟨err, herr⟩
    obtain ⟨conn, hdecode⟩ := decodeWith_error requestLine completeRequest maxHeaderBytes hr herr
    cases h.symm.trans hdecode
  have htext : t.text = (t.firstLine :: t.lines).flatMap (· ++ crlf) ++ crlf := by
    rw [text, FieldsText.textOf, List.flatMap_cons, List.append_assoc (t.firstLine ++ crlf)]
  rw [htext] at hv
  rcases suffix_lines_cases hv hne with ⟨x, rfl⟩ | rfl | ⟨ls₁, l₀, ls₂, l, hls, hl, rfl⟩
  · -- Between the two bytes of an end of line.
    refine absurd ?_ herror
    obtain ⟨line, hline⟩ := cutLine_lf (x ++ rest)
    rw [hc, List.cons_append, hline]
    exact requestLine_lf line
  · -- Only the empty line is left: the decoder takes it for the end of the stream.
    refine absurd ⟨.closed, ?_⟩ herror
    have hempty : IsLine crlf [] := isLine_crlf (by decide)
    have hcut := cutLine_append hempty rest
    rw [List.nil_append] at hcut
    rw [hc, hcut]
    rfl
  rcases ls₁ with _ | ⟨first, ls₁⟩
  · -- Within the request line.
    obtain ⟨rfl, rfl⟩ := List.cons.inj hls
    obtain ⟨rfl, hr'⟩ := t.decode_cut_firstLine hbody hr hl hc hlen h
    exact ⟨fun _ => rfl, hr'⟩
  · -- Within a line of the headers.
    obtain ⟨hreq, hr'⟩ := t.decode_cut_field hbody hr (List.cons.inj hls).2 hl hc hlen h
    exact ⟨fun heq => absurd heq hreq, hr'⟩

end Decode

end Cppnet.Http
