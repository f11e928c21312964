import Cppnet.Http.Text

/-!
# Framing of requests

The body of a request with a length: whatever the capacity of the reader, and however the text of
the request comes in, the body is made of the bytes behind it, as many as the headers say
(`requestDecode_frames`).
-/

namespace Cppnet.Http

open Lib Io

/-- Whatever the capacity, and however the parent splits the text and what is behind it into
    reads, `request_decode` finds the request of the text. Reads of its body into spans that are
    not empty deliver the bytes behind the empty line in order, up to the length given by the
    headers, and none behind: all of them, at the latest, after as many reads. -/
theorem requestDecode_frames (t : RequestText) (n : UInt64) (ht : t.HasLength n.toNat)
    (body later : Bytes) (hbody : body.length = n.toNat) (s : Source) (hs : s.Clean)
    (hpending : s.pending = t.text ++ (body ++ later)) (capacity : ℕ) (hcap : 0 < capacity)
    (maxHeaderBytes : ℕ) (hmax : linesLength t.lines < maxHeaderBytes) :
    ∃ b, requestDecode (.new s capacity) maxHeaderBytes = some (.ok (t.request, b)) ∧
      ∀ ds : List Bytes, (∀ d ∈ ds, d ≠ []) →
        ∃ out b', b.reads ds = some (out, b') ∧ out <+: body ∧
          (n.toNat ≤ ds.length → out = body) := by
  have hready : (BufferedReader.new s capacity).Ready :=
    BufferedReader.ready_new (PromptReader.prompt_of_clean hs) hcap
  obtain ⟨r, hr, hc, ⟨bs, htakes⟩, hdecode⟩ := t.decode hready hpending hmax
  have hclean : r.impl.Clean := htakes.preserves (P := Source.Clean)
    (fun hs hread => (PromptReader.err_of_clean hs hread).1) hs
  rw [ht.messageBody n.toNat_lt] at hdecode
  refine ⟨_, hdecode, fun ds hds => ?_⟩
  have hcontent : Reader.content (LimitReader.new r n.toNat) = body := by
    rw [LimitReader.content_eq]
    change (Reader.content r).take n.toNat = body
    rw [hc, List.take_left' hbody]
  have hfed : (LimitReader.new r n.toNat).Fed := by
    refine ⟨hr, hclean, ?_⟩
    change n.toNat ≤ (Reader.content r).length
    rw [hc, List.length_append, hbody]
    exact Nat.le_add_right _ _
  obtain ⟨out, b', hreads, -, hlen⟩ := LimitReader.reads_fed hfed hds
  have hout := reads_append_content hreads
  rw [hcontent] at hout hlen
  refine ⟨out, .limit b', ?_, ⟨_, hout⟩, fun hds => ?_⟩
  · exact (Body.reads_limit _ ds).trans (by rw [hreads]; rfl)
  · have hnil : Reader.content b' = [] := List.eq_nil_of_length_eq_zero (by omega)
    rw [← hout, hnil, List.append_nil]

/-- A request with a body of three bytes, on a reader with a capacity of 5, read 4 and 7 bytes at
    a time at first. -/
theorem requestDecode_frames_put :
    let t : RequestText :=
      { method := .put, target := sv "/a", uri := { path := sv "/a" }, major := sv "1",
        minor := sv "1", fields := [(sv "Content-Length", sv "3")], method_ne_none := by decide,
        target_space := by decide, target_crlf := by decide, target_uri := by decide,
        major_isNumber := ⟨by decide, by decide⟩, minor_isNumber := ⟨by decide, by decide⟩,
        fields_colon := by decide, fields_crlf := by decide }
    ∃ b, requestDecode (.new (⟨t.text ++ (sv "abc" ++ sv "GET"), [⟨4, none⟩, ⟨7, none⟩], none⟩ :
        Source) 5) 18 = some (.ok (t.request, b)) ∧
      ∀ ds : List Bytes, (∀ d ∈ ds, d ≠ []) →
        ∃ out b', b.reads ds = some (out, b') ∧ out <+: sv "abc" ∧
          (3 ≤ ds.length → out = sv "abc") :=
  requestDecode_frames _ 3 ⟨by decide, by decide⟩ (sv "abc") (sv "GET") rfl _ (by decide)
    rfl 5 (by decide) 18 (by decide)

end Cppnet.Http
