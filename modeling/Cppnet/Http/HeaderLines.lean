import Cppnet.Http.Decode

/-!
# The lines of headers

`parse_headers`, on lines that end in an empty one: it succeeds if and only if the lines are shorter than the limit,
and then adds the fields of each of them in turn and stops behind the empty line (`parseHeaders_lines`). The length
is looked at before every line and before the empty one, so that lines as long as the limit are too long.
-/

namespace Cppnet.Http

open Lib Io Util

/-- The fields of a line: its key is the text up to the first colon, and there is one for each part between the
    commas of the text behind it, both trimmed. Without a colon, there is none. -/
def headerFields (line : Bytes) : List (Bytes × Bytes) :=
  if ch ':' ∈ line then
    ((trimString (line.dropWhile (· ≠ ch ':')).tail).splitOn (ch ',')).map
      (trimString (line.takeWhile (· ≠ ch ':')), ·)
  else []

theorem lineFields_eq (line : Bytes) : lineFields line = headerFields line := by
  by_cases hcolon : ch ':' ∈ line
  · obtain ⟨key, val, rfl, hkey⟩ := List.eq_append_cons_of_mem hcolon
    have hall : ∀ c ∈ key, (decide (c ≠ ch ':')) = true := fun c hc => decide_eq_true fun h => hkey (h ▸ hc)
    rw [headerFields, if_pos hcolon, lineFields_append hkey, List.takeWhile_append_of_pos hall,
      List.dropWhile_append_of_pos hall]
    simp
  · rw [headerFields, if_neg hcolon, lineFields_of_not_mem hcolon]

section Ready

variable {σ : Type*} [Reader σ Byte ErrorCondition] [LawfulReader σ] [PromptReader σ]

/-- Lines that are not empty, up to an empty one: their fields are added to the headers in their order, if the
    lengths of the lines sum to less than the limit, and otherwise they are too large. -/
theorem parseHeaders_lines (r : BufferedReader σ) (hr : r.Ready) (lines : List Bytes) (rest : Bytes)
    (hlines : ∀ l ∈ lines, l ≠ [] ∧ ¬crlf <:+: l)
    (hc : Reader.content r = lines.flatMap (· ++ crlf) ++ (crlf ++ rest)) (maxRead : ℕ) (headers : Headers) :
    (linesLength lines < maxRead → ∃ r', Reader.content r' = rest ∧
      parseHeaders r maxRead headers = some (.ok (headers.addAll (lines.flatMap headerFields)), r')) ∧
    (¬linesLength lines < maxRead → ∃ r',
      parseHeaders r maxRead headers = some (.error (.errc .valueTooLarge), r')) := by
  have hpar := paragraph_lines crlf_ne_nil (fun l hl => ⟨isLine_crlf (hlines l hl).2, (hlines l hl).1⟩) rest
  obtain ⟨⟨res, r'⟩, hparse, hout⟩ := parseHeaders_ready hr maxRead headers
  rw [hc, hpar] at hout
  obtain ⟨-, hresult, hcontent, -⟩ := hout
  simp only [Nat.zero_add, foldl_addLine_eq] at hresult hcontent
  have hfields : lines.flatMap lineFields = lines.flatMap headerFields := by
    congr 1
    funext line
    exact lineFields_eq line
  constructor
  · intro hlt
    rw [if_pos hlt, hfields] at hresult
    exact ⟨r', hcontent hlt, by rw [hparse, hresult]⟩
  · intro hge
    rw [if_neg hge] at hresult
    exact ⟨r', by rw [hparse, hresult]⟩

end Ready

/-- Two lines of one header, and one without a colon between them: twelve bytes, for a limit of twelve and one of
    thirteen. -/
theorem parseHeaders_lines_three :
    let r := BufferedReader.new (⟨sv "A: 1,2" ++ crlf ++ (sv "x" ++ crlf ++ (sv "a : 3" ++ crlf)) ++ (crlf ++ sv "B"),
      [⟨7, none⟩], none⟩ : Source) 4
    (∃ r', Reader.content r' = sv "B" ∧ parseHeaders r 13 .empty =
      some (.ok (.addAll .empty [(sv "A", sv "1"), (sv "A", sv "2"), (sv "a", sv "3")]), r')) ∧
    ∃ r', parseHeaders r 12 .empty = some (.error (.errc .valueTooLarge), r') := by
  have h := parseHeaders_lines _ (BufferedReader.ready_source (s := ⟨sv "A: 1,2" ++ crlf ++
    (sv "x" ++ crlf ++ (sv "a : 3" ++ crlf)) ++ (crlf ++ sv "B"), [⟨7, none⟩], none⟩) (by decide) (by decide : 0 < 4))
    [sv "A: 1,2", sv "x", sv "a : 3"] (sv "B") (by decide) (by decide)
  exact ⟨(h 13 .empty).1 (by decide), (h 12 .empty).2 (by decide)⟩

end Cppnet.Http
