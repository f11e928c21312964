import Cppnet.Http.Decode
import Cppnet.Http.Encode
import Cppnet.Url.RoundTrip

/-!
# Encoding and decoding

What the decoders make of what the encoders write, in whatever order they iterate the headers.

A key with one value comes back as it was. One with several does not: the values are joined by a
comma and a space, but split at the commas only, so that all of them but the first come back
with a space before them (`receivedValues`). Headers thus survive exactly if every key has one
value (`headers_survive_iff`); then responses (`response_roundTrip`) do, as far as their other parts go, and so do
requests, if and only if the space behind the method is found where it was (`request_roundTrip_iff`).
-/

namespace Cppnet.Http

open Lib Io Util

/-! ## Values -/

/-- Keys and values that are not taken for something else: not empty, without a carriage return, a
    line feed or a comma, and trimmed. -/
@[mk_iff] structure CleanText (s : Bytes) : Prop where
  ne_nil : s ≠ []
  cr : 13 ∉ s
  lf : 10 ∉ s
  comma : ch ',' ∉ s
  trimmed : Trimmed s

instance (s : Bytes) : Decidable (CleanText s) := decidable_of_iff' _ (cleanText_iff s)

/-- Headers whose keys have values, with keys and values that are not taken for something else. -/
@[mk_iff] structure CleanHeaders (headers : Headers) : Prop where
  key : ∀ e ∈ headers.entries, CleanText e.1
  key_colon : ∀ e ∈ headers.entries, ch ':' ∉ e.1
  ne_nil : ∀ e ∈ headers.entries, e.2 ≠ []
  values : ∀ e ∈ headers.entries, ∀ v ∈ e.2, CleanText v

instance (headers : Headers) : Decidable (CleanHeaders headers) :=
  decidable_of_iff' _ (cleanHeaders_iff headers)

/-- The values of a key, as they are received. -/
def receivedValues : List Bytes → List Bytes
  | [] => []
  | v :: vs => v :: vs.map (ch ' ' :: ·)

theorem joinValues_eq (vs : List Bytes) : joinValues vs = [ch ','].intercalate (receivedValues vs) := by
  have h : ∀ (w : Bytes) (vs : List Bytes),
      (sv ", ").intercalate (w :: vs) = [ch ','].intercalate (w :: vs.map (ch ' ' :: ·)) := by
    intro w vs
    induction vs generalizing w with
    | nil => rfl
    | cons v vs ih =>
      have hv : [ch ','].intercalate ((ch ' ' :: v) :: vs.map (ch ' ' :: ·)) =
          ch ' ' :: (sv ", ").intercalate (v :: vs) := by
        rw [ih v]
        rcases vs with _ | ⟨v', vs⟩
        · rfl
        · simp only [List.map_cons, List.intercalate_cons_cons, List.cons_append]
      rw [List.map_cons, List.intercalate_cons_cons, List.intercalate_cons_cons, hv]
      simp [sv]
  rcases vs with _ | ⟨v, vs⟩
  · rfl
  · exact h v vs

theorem receivedValues_eq_nil {vs : List Bytes} : receivedValues vs = [] ↔ vs = [] := by
  rcases vs with _ | ⟨v, vs⟩
  · simp [receivedValues]
  · simp [receivedValues]

/-- Values are received as they are sent only if there is no more than one. -/
theorem receivedValues_eq_self {vs : List Bytes} : receivedValues vs = vs ↔ vs.length ≤ 1 := by
  rcases vs with _ | ⟨v, _ | ⟨v', vs⟩⟩
  · simp [receivedValues]
  · simp [receivedValues]
  · simp [receivedValues, List.cons_ne_self]

theorem not_mem_joinValues {vs : List Bytes} (hvs : ∀ v ∈ vs, CleanText v) :
    10 ∉ joinValues vs := by
  induction vs with
  | nil => simp [joinValues]
  | cons v vs ih =>
    have hv := (hvs v List.mem_cons_self).lf
    rcases vs with _ | ⟨v', vs⟩
    · rwa [joinValues, List.intercalate_singleton]
    · rw [joinValues, List.intercalate_cons_cons, ← joinValues, List.mem_append, List.mem_append]
      exact not_or.2 ⟨not_or.2 ⟨hv, by decide⟩, ih fun w hw => hvs w (List.mem_cons_of_mem v hw)⟩

/-- Joined values are not empty, and trimmed. -/
theorem trimmed_joinValues {vs : List Bytes} (hne : vs ≠ []) (hvs : ∀ v ∈ vs, CleanText v) :
    joinValues vs ≠ [] ∧ Trimmed (joinValues vs) := by
  induction vs with
  | nil => exact absurd rfl hne
  | cons v vs ih =>
    have hv := hvs v List.mem_cons_self
    rcases vs with _ | ⟨v', vs⟩
    · rw [joinValues, List.intercalate_singleton]
      exact ⟨hv.ne_nil, hv.trimmed⟩
    · obtain ⟨hne', -, hlast⟩ := ih (List.cons_ne_nil _ _) fun w hw =>
        hvs w (List.mem_cons_of_mem v hw)
      have heq : joinValues (v :: v' :: vs) = v ++ (sv ", " ++ joinValues (v' :: vs)) := by
        rw [joinValues, List.intercalate_cons_cons, List.append_assoc, ← joinValues]
      rw [heq]
      refine ⟨List.append_ne_nil_of_left_ne_nil hv.ne_nil _, ?_, ?_⟩
      · rw [List.head?_append_of_ne_nil _ hv.ne_nil]
        exact hv.trimmed.1
      · rw [← List.append_assoc, List.getLast?_append_of_ne_nil _ hne']
        exact hlast

/-- What is made of the line of a key. -/
theorem lineFields_headerLine {e : Bytes × List Bytes} (hkey : CleanText e.1)
    (hcolon : ch ':' ∉ e.1) (hne : e.2 ≠ []) (hvalues : ∀ v ∈ e.2, CleanText v) :
    lineFields (headerLine e) = (receivedValues e.2).map (e.1, ·) := by
  obtain ⟨hjoin, htrim⟩ := trimmed_joinValues hne hvalues
  have hline : headerLine e = e.1 ++ ch ':' :: (ch ' ' :: joinValues e.2) := by
    rw [headerLine, List.append_assoc]
    rfl
  have hcomma : ∀ v ∈ receivedValues e.2, ch ',' ∉ v := by
    obtain ⟨key, _ | ⟨v, vs⟩⟩ := e
    · exact absurd rfl hne
    · refine List.forall_mem_cons.2 ⟨(hvalues v List.mem_cons_self).comma, fun w hw => ?_⟩
      obtain ⟨v', hv', rfl⟩ := List.mem_map.1 hw
      exact List.not_mem_cons_of_ne_of_not_mem (by decide)
        (hvalues v' (List.mem_cons_of_mem v hv')).comma
  rw [hline, lineFields_append hcolon, trimString_space hjoin htrim, joinValues_eq,
    List.splitOn_intercalate _ hcomma (mt receivedValues_eq_nil.1 hne), trimString_of_trimmed hkey.trimmed]

/-! ## Headers -/

section Headers

variable {headers : Headers} (hh : CleanHeaders headers) {order : List (Bytes × List Bytes)}
  (horder : order.Perm headers.entries)

include hh horder

/-- The lines of clean headers are lines. -/
theorem CleanHeaders.isLine : ∀ l ∈ order.map headerLine, IsLine crlf l ∧ l ≠ [] := by
  intro l hl
  obtain ⟨e, he, rfl⟩ := List.mem_map.1 hl
  have he' := horder.mem_iff.1 he
  refine ⟨isLine_crlf (not_crlf_of_not_mem ?_), ?_⟩
  · rw [headerLine, List.mem_append, List.mem_append, not_or, not_or]
    exact ⟨⟨(hh.key e he').lf, by decide⟩, not_mem_joinValues (hh.values e he')⟩
  · rw [headerLine, List.append_assoc]
    exact List.append_ne_nil_of_left_ne_nil (hh.key e he').ne_nil _

/-- The headers received. -/
theorem CleanHeaders.messageHeaders_entries :
    (messageHeaders (order.map headerLine)).entries =
      order.map fun e => (e.1, receivedValues e.2) := by
  have hfields : (order.map headerLine).flatMap lineFields =
      (order.map fun e => (e.1, receivedValues e.2)).flatMap fun e => e.2.map (e.1, ·) := by
    rw [List.flatMap_map, List.flatMap_map]
    refine List.flatMap_congr fun e he => ?_
    have he' := horder.mem_iff.1 he
    exact lineFields_headerLine (hh.key e he') (hh.key_colon e he') (hh.ne_nil e he')
      (hh.values e he')
  have hnodup : ((order.map fun e => (e.1, receivedValues e.2)).map fun e => lower e.1).Nodup := by
    rw [List.map_map]
    exact (horder.map _).nodup_iff.2 headers.nodup
  rw [messageHeaders, hfields, KeyedMap.entries_addAll_flatMap hnodup]
  · rfl
  · intro e he
    obtain ⟨e', he', rfl⟩ := List.mem_map.1 he
    exact mt receivedValues_eq_nil.1 (hh.ne_nil e' (horder.mem_iff.1 he'))
  · simp

/-- Headers are received as they are sent if and only if every key has one value. -/
theorem CleanHeaders.messageHeaders_same_iff :
    (messageHeaders (order.map headerLine)).Same headers ↔
      ∀ e ∈ headers.entries, e.2.length = 1 := by
  rw [KeyedMap.Same, hh.messageHeaders_entries horder]
  constructor
  · -- The entry received for a key is the one sent for it, as no other has the key.
    intro h e he
    have hmem : (e.1, receivedValues e.2) ∈ headers.entries :=
      h.mem_iff.1 (List.mem_map_of_mem (horder.mem_iff.2 he))
    have heq := List.inj_on_of_nodup_map headers.nodup hmem he rfl
    have hle := receivedValues_eq_self.1 (congrArg Prod.snd heq)
    have hpos := List.length_pos_iff.2 (hh.ne_nil e he)
    omega
  · intro h
    have hid : ∀ e ∈ headers.entries, (e.1, receivedValues e.2) = e := fun e he =>
      Prod.ext rfl (receivedValues_eq_self.2 (h e he).le)
    have hmap := List.map_congr_left hid
    rw [List.map_id'] at hmap
    exact (horder.map _).trans (.of_eq hmap)

end Headers

/-- For every map of clean headers, and every order in which `write_headers` may write it: however
    its text, with an empty line behind it, is split into reads, `parse_headers` finds the map in it
    if and only if every key has one value. -/
theorem headers_survive_iff (headers : Headers) (hh : CleanHeaders headers)
    (order : List (Bytes × List Bytes)) (horder : order.Perm headers.entries) :
    ∃ w, writeHeaders Sink.empty order = some (none, w) ∧
      ∀ (s : Source) (rest : Bytes) (capacity maxRead : ℕ), s.Prompt →
        s.pending = w.received ++ (crlf ++ rest) → 0 < capacity →
        linesLength (order.map headerLine) < maxRead →
        ((∃ headers' r, parseHeaders (.new s capacity) maxRead .empty = some (.ok headers', r) ∧
          headers'.Same headers) ↔ ∀ e ∈ headers.entries, e.2.length = 1) := by
  obtain ⟨w, hw, hreceived⟩ := writeEach_received (order.flatMap headerParts)
  rw [flatten_flatMap_headerParts] at hreceived
  refine ⟨w, hw, fun s rest capacity maxRead hs hpending hcap hmax => ?_⟩
  obtain ⟨⟨headers', r⟩, hparse, hout⟩ := parseHeaders_ready
    (BufferedReader.ready_source hs hcap) maxRead .empty
  -- The lines that are read are those that were written.
  have hpar : paragraph crlf (Reader.content (BufferedReader.new s capacity)) =
      (order.map headerLine, some rest) := by
    rw [← paragraph_lines crlf_ne_nil (hh.isLine horder) rest]
    exact congrArg _ (hpending.trans (congrArg (· ++ _) hreceived))
  have hresult := hout.result
  rw [hpar, Nat.zero_add, if_pos hmax, foldl_addLine_eq] at hresult
  rw [← hh.messageHeaders_same_iff horder]
  constructor
  · rintro ⟨headers'', r', h, hsame⟩
    cases h.symm.trans hparse
    cases hresult
    exact hsame
  · intro hsame
    cases hresult
    exact ⟨_, _, hparse, hsame⟩

/-- Two keys, with a value each. -/
theorem headers_survive_iff_two :
    let headers : Headers := ⟨[(sv "Host", [sv "a.b"]), (sv "Via", [sv "x y"])], by decide⟩
    ∃ w, writeHeaders Sink.empty headers.entries = some (none, w) ∧
      ∃ headers' r, parseHeaders (.new (⟨w.received ++ (crlf ++ sv "z"), [⟨3, none⟩], none⟩ : Source)
        4) 100 .empty = some (.ok headers', r) ∧ headers'.Same headers := by
  intro headers
  obtain ⟨w, hw, h⟩ := headers_survive_iff headers (by decide) headers.entries (.refl _)
  exact ⟨w, hw, (h _ _ 4 100 (by simp [Source.Prompt]) rfl (by decide) (by decide)).2 (by decide)⟩

/-- A key with the values `a` and `b` comes back with the values `a` and ` b`. -/
theorem headers_lose_second :
    let headers : Headers := ⟨[(sv "Accept", [sv "a", sv "b"])], by decide⟩
    CleanHeaders headers ∧
      ∃ w headers' r, writeHeaders Sink.empty headers.entries = some (none, w) ∧
        parseHeaders (.new (⟨w.received ++ crlf, [], none⟩ : Source) 64) 100 .empty =
          some (.ok headers', r) ∧
        headers'.entries = [(sv "Accept", [sv "a", sv " b"])] ∧ ¬headers'.Same headers := by
  refine ⟨by decide, _, _, _, rfl, rfl, by decide, ?_⟩
  unfold KeyedMap.Same
  decide

/-! ## Messages -/

/-- The digit of a number up to 9. -/
theorem isNumber_versionDigit {v : UInt32} (hv : v ≤ 9) :
    IsNumber [(v + 48).toUInt8] ∧
      UInt32.ofNat (numeralValue 10 (digits 10 [(v + 48).toUInt8])) = v := by
  have h : ∀ n < 10, (IsNumeral [(UInt32.ofNat n + 48).toUInt8] ∧
      numeralValue 10 (digits 10 [(UInt32.ofNat n + 48).toUInt8]) < 2 ^ 32) ∧
      UInt32.ofNat (numeralValue 10 (digits 10 [(UInt32.ofNat n + 48).toUInt8])) =
        UInt32.ofNat n := by
    decide
  obtain ⟨⟨hnum, hlt⟩, hval⟩ := h v.toNat (Nat.lt_succ_of_le (UInt32.le_iff_toNat_le.1 hv))
  rw [UInt32.ofNat_toNat] at hnum hlt hval
  exact ⟨⟨hnum, hlt⟩, hval⟩

/-- A version with numbers up to 9 is read as it was written, before something that is not a
    digit. -/
theorem parseHttpVersion_versionBuf {version : ProtocolVersion} (hmajor : version.major ≤ 9)
    (hminor : version.minor ≤ 9) {rest : Bytes} (hrest : ∀ c ∈ rest.head?, digit 10 c = none) :
    parseHttpVersion (sv "HTTP/" ++ ((versionBuf version).take 3 ++ rest)) = .ok version := by
  obtain ⟨hnum₁, hval₁⟩ := isNumber_versionDigit hmajor
  obtain ⟨hnum₂, hval₂⟩ := isNumber_versionDigit hminor
  have h := parseHttpVersion_eq hnum₁ hnum₂ hrest
  rw [numeralVersion, hval₁, hval₂] at h
  exact h

theorem not_mem_versionBuf {version : ProtocolVersion} (hmajor : version.major ≤ 9)
    (hminor : version.minor ≤ 9) {c : Byte} (hc : digit 10 c = none) (hdot : c ≠ ch '.') :
    c ∉ (versionBuf version).take 3 := by
  have h₁ := (isNumber_versionDigit hmajor).1.isNumeral.not_mem hc
  have h₂ := (isNumber_versionDigit hminor).1.isNumeral.not_mem hc
  rw [List.mem_singleton] at h₁ h₂
  simp only [versionBuf, List.take_succ_cons, List.take_zero, List.mem_cons, List.not_mem_nil,
    or_false, not_or]
  exact ⟨h₁, hdot, h₂⟩

/-- Decoding a first line that is read as `message`, and clean headers. -/
theorem CleanHeaders.decodeWith {μ : Type*} {headers : Headers} (hh : CleanHeaders headers)
    {order : List (Bytes × List Bytes)} (horder : order.Perm headers.entries)
    (firstLine : Bytes → Option (Except ErrorCondition μ)) (complete : μ → Headers → μ)
    {first : Bytes} {message : μ} (hfirst : IsLine crlf first)
    (hline : firstLine first = some (.ok message)) {s : Source} (hs : s.Prompt) {rest : Bytes}
    (hpending : s.pending = first ++ crlf ++ (headersText order ++ (crlf ++ rest)))
    {capacity maxHeaderBytes : ℕ} (hcap : 0 < capacity)
    (hmax : linesLength (order.map headerLine) < maxHeaderBytes) :
    ∃ body, Http.decodeWith (parseFirstLine firstLine) complete (.new s capacity) maxHeaderBytes =
      some (.ok (complete message (messageHeaders (order.map headerLine)), body)) := by
  have hready : (BufferedReader.new s capacity).Ready :=
    BufferedReader.ready_source hs hcap
  obtain ⟨r, -, -, -, hok⟩ := decodeWith_text firstLine complete maxHeaderBytes hready hpending
    hfirst (hh.isLine horder) hline hmax
  exact ⟨_, hok⟩

/-- Every response with a named status, a version with numbers up to 9, and clean headers, one
    value for each key, is decoded as it was encoded, in whatever order its headers are iterated,
    and however its text is split into reads. -/
theorem response_roundTrip (resp : ServerResponse) (hstatus : resp.statusCode.Named)
    (hmajor : resp.version.major ≤ 9) (hminor : resp.version.minor ≤ 9)
    (hh : CleanHeaders resp.headers) (hsingle : ∀ e ∈ resp.headers.entries, e.2.length = 1)
    (order : List (Bytes × List Bytes)) (horder : order.Perm resp.headers.entries) :
    ∃ w, responseEncode Sink.empty resp order = some (none, w) ∧
      ∀ (s : Source) (rest : Bytes) (capacity maxHeaderBytes : ℕ), s.Prompt →
        s.pending = w.received ++ rest → 0 < capacity →
        linesLength (order.map headerLine) < maxHeaderBytes →
        ∃ resp' body, responseDecode (.new s capacity) maxHeaderBytes = some (.ok (resp', body)) ∧
          resp'.version = resp.version ∧ resp'.statusCode = resp.statusCode ∧
          resp'.headers.Same resp.headers := by
  obtain ⟨number, reason, htext, hstatusLine⟩ := statusText_eq hstatus
  have hend : ∀ c ∈ ([] : Bytes).head?, digit 10 c = none := by simp
  have hversion := parseHttpVersion_versionBuf hmajor hminor hend
  rw [List.append_nil] at hversion
  -- The version ends at the first blank.
  have hspace : ch ' ' ∉ sv "HTTP/" ++ (versionBuf resp.version).take 3 := by
    rw [List.mem_append, not_or]
    exact ⟨by decide, not_mem_versionBuf hmajor hminor (by decide) (by decide)⟩
  have hline := statusLine_eq hspace hversion hstatusLine
  have hfirst : 10 ∉ sv "HTTP/" ++ (versionBuf resp.version).take 3 ++
      ch ' ' :: (number ++ ch ' ' :: reason) := by
    simp only [List.mem_append, List.mem_cons, not_or]
    exact ⟨⟨by decide, not_mem_versionBuf hmajor hminor (by decide) (by decide)⟩, by decide,
      hstatusLine.isNumeral.not_mem (by decide), by decide, hstatusLine.reason⟩
  obtain ⟨w, hw, hreceived⟩ := writeEach_received (responseParts resp order)
  refine ⟨w, hw, fun s rest capacity maxHeaderBytes hs hpending hcap hmax => ?_⟩
  have hpending' : s.pending = sv "HTTP/" ++ (versionBuf resp.version).take 3 ++
      ch ' ' :: (number ++ ch ' ' :: reason) ++ crlf ++ (headersText order ++ (crlf ++ rest)) := by
    rw [hpending, hreceived, flatten_responseParts, htext]
    simp only [List.append_assoc]
  obtain ⟨body, hdecode⟩ := hh.decodeWith horder (fun line => some (statusLine line))
    (fun resp headers => { resp with headers }) (isLine_crlf (not_crlf_of_not_mem hfirst)) (congrArg some hline) hs
    hpending' hcap hmax
  exact ⟨_, body, hdecode, rfl, rfl, (hh.messageHeaders_same_iff horder).2 hsingle⟩

/-- A response with two keys. -/
theorem response_roundTrip_ok :
    let resp : ServerResponse := ⟨⟨1, 1⟩, 200,
      ⟨[(sv "Server", [sv "cppnet"]), (sv "Content-Length", [sv "0"])], by decide⟩⟩
    ∃ w, responseEncode Sink.empty resp resp.headers.entries.reverse = some (none, w) ∧
      ∃ resp' body, responseDecode (.new (⟨w.received ++ sv "rest", [⟨7, none⟩], none⟩ : Source) 16)
        100 = some (.ok (resp', body)) ∧ resp'.version = resp.version ∧
        resp'.statusCode = resp.statusCode ∧ resp'.headers.Same resp.headers := by
  intro resp
  obtain ⟨w, hw, h⟩ := response_roundTrip resp (by decide) (by decide) (by decide) (by decide)
    (by decide) _ (List.reverse_perm _)
  exact ⟨w, hw, h _ _ 16 100 (by simp [Source.Prompt]) rfl (by decide) (by decide)⟩

/-! ## Requests -/

/-- One byte is not enough for an end of line. -/
theorem not_crlf_append_cons {a b : Bytes} (ha : 10 ∉ a) (ha' : 13 ∉ a) (hb : 10 ∉ b) (c : Byte) :
    ¬crlf <:+: a ++ c :: b := by
  rw [← List.singleton_append, crlf_append_iff, crlf_append_iff]
  rintro (h | (h | h | ⟨-, h⟩) | ⟨h, -⟩)
  · exact not_crlf_of_not_mem ha h
  · exact absurd h.length_le (by simp [crlf])
  · exact not_crlf_of_not_mem hb h
  · exact hb (h.subset List.mem_cons_self)
  · exact ha' (h.subset List.mem_cons_self)

/-- Without a space behind the method, the url is taken for a part of it. -/
theorem requestLine_of_ne {method : RequestMethod} {found : Byte} {target version : Bytes} (hfound : found ≠ ch ' ')
    (htarget : ch ' ' ∉ target) (hcolon : ch ':' ∈ target) :
    requestLine (methodString method ++ found :: (target ++ ch ' ' :: version)) =
      some (.error (.errc .illegalByteSequence)) := by
  have hword : ch ' ' ∉ methodString method ++ found :: target := by
    rw [List.mem_append, List.mem_cons, not_or, not_or]
    exact ⟨not_mem_methodString method _ (by decide), hfound.symm, htarget⟩
  have hmethod : parseMethod (methodString method ++ found :: target) = .none :=
    parseMethod_of_mem (c := ch ':') (by decide) (by simp [hcolon])
  rw [← List.cons_append, ← List.append_assoc, requestLine, if_neg (by simp), find_zero_eq_some _ hword]
  dsimp only
  rw [List.take_left, if_pos hmethod]

section FirstLine

variable {req : ClientRequest} (huri : req.uri.Plain) {query : List (Bytes × List Bytes)}
  (hquery : query.Perm req.uri.query.entries)

include huri

/-- There is a colon behind the scheme. -/
theorem colon_mem_build (query : List (Bytes × List Bytes)) : ch ':' ∈ req.uri.build query := by
  have hcolon : ch ':' ∈ sv "://" := by decide
  rw [Url.build, if_neg huri.scheme_ne_nil]
  simp only [List.mem_append, hcolon, or_true, true_or]

variable (hmajor : (requestVersion req.version).major ≤ 9) (hminor : (requestVersion req.version).minor ≤ 9)

include hquery hmajor hminor

/-- The first line of a request is read as one, whatever is found for the space. -/
theorem isLine_requestFirst (found : Byte) : IsLine crlf (requestFirst found req query) := by
  refine isLine_crlf (not_crlf_append_cons (not_mem_methodString _ _ (by decide))
    (not_mem_methodString _ _ (by decide)) ?_ found)
  simp only [List.mem_append, List.mem_cons, not_or]
  exact ⟨huri.not_mem_build hquery (by decide) (by decide), by decide, by decide,
    not_mem_versionBuf hmajor hminor (by decide) (by decide), by decide, List.not_mem_nil⟩

/-- It is read as it was written, if the space was found. -/
theorem requestLine_requestFirst (hmethod : req.method ≠ .none) :
    ∃ queryValues : QueryValues, queryValues.entries = query ∧
      requestLine (requestFirst (ch ' ') req query) = some (.ok
        { method := req.method, version := requestVersion req.version,
          uri := { req.uri with query := queryValues } }) := by
  obtain ⟨queryValues, hentries, hparse⟩ := huri.parse_build hquery
  have hend : ∀ c ∈ [ch ' '].head?, digit 10 c = none := by
    rintro c ⟨⟩
    decide
  exact ⟨queryValues, hentries, requestLine_eq hmethod (huri.not_mem_build hquery (by decide) (by decide))
    (requestUri_eq hparse) (parseHttpVersion_versionBuf hmajor hminor hend)⟩

end FirstLine

/-- For every request with a method, a version other than 0.0 with numbers up to 9, a plain url, and clean headers,
    one value for each key, in whatever order its query and its headers are iterated, and however its text is split
    into reads: it is decoded as it was encoded, if and only if what is found for the space behind the method is a
    space. -/
theorem request_roundTrip_iff (found : Byte) (req : ClientRequest) (hmethod : req.method ≠ .none)
    (hversion : req.version ≠ ⟨0, 0⟩) (hmajor : req.version.major ≤ 9)
    (hminor : req.version.minor ≤ 9) (huri : req.uri.Plain) (hh : CleanHeaders req.headers)
    (hsingle : ∀ e ∈ req.headers.entries, e.2.length = 1)
    (queryOrder order : List (Bytes × List Bytes))
    (hqueryOrder : queryOrder.Perm req.uri.query.entries)
    (horder : order.Perm req.headers.entries) :
    ∃ w, requestEncode Sink.empty found req queryOrder order = some (none, w) ∧
      ∀ (s : Source) (rest : Bytes) (capacity maxHeaderBytes : ℕ), s.Prompt →
        s.pending = w.received ++ rest → 0 < capacity →
        linesLength (order.map headerLine) < maxHeaderBytes →
        ((∃ req' body, requestDecode (.new s capacity) maxHeaderBytes = some (.ok (req', body)) ∧
          req'.method = req.method ∧ req'.version = req.version ∧
          (∃ query, query.Same req.uri.query ∧ req'.uri = { req.uri with query }) ∧
          req'.headers.Same req.headers) ↔ found = ch ' ') := by
  have hrequestVersion : requestVersion req.version = req.version :=
    if_neg fun h => hversion (ProtocolVersion.ext h.1 h.2)
  have hmajor' : (requestVersion req.version).major ≤ 9 := by rwa [hrequestVersion]
  have hminor' : (requestVersion req.version).minor ≤ 9 := by rwa [hrequestVersion]
  have hfirst := isLine_requestFirst huri hqueryOrder hmajor' hminor' found
  obtain ⟨w, hw, hreceived⟩ := writeEach_received (requestParts found req queryOrder order)
  refine ⟨w, hw, fun s rest capacity maxHeaderBytes hs hpending hcap hmax => ?_⟩
  -- What was written: a first line, the headers, and an empty line.
  have hpending' : s.pending = requestFirst found req queryOrder ++ crlf ++
      (headersText order ++ (crlf ++ rest)) := by
    rw [hpending, hreceived, flatten_requestParts]
    simp only [List.append_assoc]
  constructor
  · rintro ⟨req', body, hdecode, -⟩
    by_contra hfound
    have hcontent : Reader.content (BufferedReader.new s capacity) = requestFirst found req queryOrder ++ crlf ++
        (headersText order ++ (crlf ++ rest)) := hpending'
    have hcut : (cutLine crlf (Reader.content (BufferedReader.new s capacity))).1 =
        requestFirst found req queryOrder := by rw [hcontent, cutLine_append hfirst]
    have hline : requestLine (requestFirst found req queryOrder) = some (.error (.errc .illegalByteSequence)) :=
      requestLine_of_ne hfound (huri.not_mem_build hqueryOrder (by decide) (by decide))
        (colon_mem_build huri queryOrder)
    obtain ⟨conn, herror⟩ := decodeWith_error requestLine completeRequest maxHeaderBytes
      (BufferedReader.ready_source hs hcap) (by rw [hcut]; exact hline)
    cases herror.symm.trans hdecode
  · rintro rfl
    obtain ⟨query, hquery, hline⟩ := requestLine_requestFirst huri hqueryOrder hmajor' hminor' hmethod
    obtain ⟨body, hdecode⟩ := hh.decodeWith horder requestLine completeRequest hfirst hline hs
      hpending' hcap hmax
    rw [completeRequest_of_host huri.host_ne_nil] at hdecode
    exact ⟨_, body, hdecode, rfl, hrequestVersion, ⟨query, (List.Perm.of_eq hquery).trans hqueryOrder, rfl⟩,
      (hh.messageHeaders_same_iff horder).2 hsingle⟩

/-- A request with a query and a header, if the space is found. -/
theorem request_roundTrip_iff_get :
    let uri : Url :=
      { scheme := sv "http", host := sv "a.b", path := sv "/c", query := ⟨[(sv "q", [sv "1"])],
        by decide⟩ }
    let req : ClientRequest := ⟨.get, ⟨1, 1⟩, uri, ⟨[(sv "Accept", [sv "x/y"])], by decide⟩⟩
    ∃ w, requestEncode Sink.empty (ch ' ') req uri.query.entries req.headers.entries = some (none, w) ∧
      ∃ req' body, requestDecode (.new (⟨w.received ++ sv "rest", [⟨7, none⟩], none⟩ : Source) 16)
        100 = some (.ok (req', body)) ∧ req'.method = req.method ∧ req'.version = req.version ∧
        (∃ query, query.Same req.uri.query ∧ req'.uri = { req.uri with query }) ∧
        req'.headers.Same req.headers := by
  intro uri req
  have hplain : uri.Plain := ⟨by decide, by decide, by decide, by decide, by decide, by decide,
    by decide, by decide, by decide, by decide, by decide⟩
  obtain ⟨w, hw, h⟩ := request_roundTrip_iff (ch ' ') req (by decide) (by decide) (by decide) (by decide) hplain
    (by decide) (by decide) _ _ (.refl _) (.refl _)
  exact ⟨w, hw, (h _ _ 16 100 (by simp [Source.Prompt]) rfl (by decide) (by decide)).2 rfl⟩

/-- With a zero in place of the space, `GET` and the url are taken for a method, and there is none of that name. -/
theorem request_not_roundTrip :
    let uri : Url := { scheme := sv "http", host := sv "a.b", path := sv "/c" }
    let req : ClientRequest := { method := .get, version := ⟨1, 1⟩, uri }
    uri.Plain ∧ ∃ w conn, requestEncode Sink.empty 0 req [] [] = some (none, w) ∧
      w.received = sv "GET" ++ 0 :: sv "http://a.b/c HTTP/1.1 \r\n\r\n" ∧
      requestDecode (.new (⟨w.received, [], none⟩ : Source) 64) 100 =
        some (.error (.errc .illegalByteSequence, conn)) := by
  intro uri req
  have hplain : uri.Plain := ⟨by decide, by decide, by decide, by decide, by decide, by decide,
    by decide, by decide, by decide, by decide, by decide⟩
  obtain ⟨w, hw, hreceived⟩ := writeEach_received (requestParts 0 req [] [])
  have hready : (BufferedReader.new (⟨w.received, [], none⟩ : Source) 64).Ready :=
    BufferedReader.ready_source (by simp [Source.Prompt]) (by decide)
  have hline : requestLine (cutLine crlf (requestParts 0 req [] []).flatten).1 =
      some (.error (.errc .illegalByteSequence)) := by decide
  rw [← hreceived] at hline
  obtain ⟨conn, herror⟩ := decodeWith_error requestLine completeRequest 100 hready hline
  exact ⟨hplain, w, conn, hw, by rw [hreceived]; decide, herror⟩

end Cppnet.Http
