import Cppnet.Bytes
import Cppnet.Io.BufferedReader
import Cppnet.Lib.Line

/-!
# `readline`

`io/util.cpp`: reads a line byte by byte from a buffered reader, up to an end of
line or to where there is nothing more to read.

`Takes r bs r'` says that the bytes `bs` can be taken from `r` one by one, each by
a `peek` that finds it followed by a `read` of one byte, leaving `r'`. This is all
the parsers do to their reader: what they find is stated for the bytes they take
(`readline_takes`), and a ready reader has its contents to take (`exists_takes`).
In between, whatever the splitting of the parent's reads and the capacity do to
the buffer is in `Takes`.
-/

namespace Cppnet.Io

open Lib

variable {σ : Type*} [Reader σ Byte ErrorCondition]

section Model

/-- One turn of the loop in `readline`, with the line so far. -/
def readlineTurn (endOfLine : Bytes) (s : Bytes × BufferedReader σ) :
    Option (Turn (Bytes × BufferedReader σ)
      (Except ErrorCondition Bytes × BufferedReader σ)) :=
  let (line, reader) := s
  if endOfLine <:+ line then some (.done (.ok line, reader))
  else do
    let ((_, haveNext), reader) ← reader.peek
    if !haveNext then some (.done (.ok line, reader))
    else
      let (res, data, reader) ← reader.read [0]
      match res.err with
      | some err => some (.done (.error err, reader))
      | none =>
        if res.count = 0 then some (.done (.error .closed, reader))
        else some (.next (line ++ data, reader))

/-- `readline`: the line without its end, or what there was of it. -/
def readline (reader : BufferedReader σ) (endOfLine : Bytes) :
    Option (Except ErrorCondition Bytes × BufferedReader σ) := do
  let (line, reader) ← Loop.run (readlineTurn endOfLine) (Reader.fuel reader + 1) ([], reader)
  let strip (line : Bytes) : Bytes :=
    if endOfLine <:+ line then line.take (line.length - endOfLine.length) else line
  some (line.map strip, reader)

end Model

/-! ## Taking bytes one by one -/

/-- The bytes `bs` can be taken from `r` one by one, leaving `r'`. -/
inductive Takes : BufferedReader σ → Bytes → BufferedReader σ → Prop
  | nil (r : BufferedReader σ) : Takes r [] r
  | cons {r r₁ r₂ r' : BufferedReader σ} {b : Byte} {bs : Bytes} :
      r.peek = some ((b, true), r₁) → r₁.read [0] = some (⟨1, none⟩, [b], r₂) →
      Takes r₂ bs r' → Takes r (b :: bs) r'

namespace Takes

variable {r r₁ r' : BufferedReader σ} {bs bs' : Bytes}

theorem append (h : Takes r bs r₁) (h' : Takes r₁ bs' r') : Takes r (bs ++ bs') r' := by
  induction h with
  | nil => exact h'
  | cons hpeek hread _ ih => exact .cons hpeek hread (ih h')

/-- What the reads of the parent preserve is preserved. -/
theorem preserves {P : σ → Prop}
    (hP : ∀ {s s' : σ} {d d' : Bytes} {res : Result}, P s → Reader.read s d = some (res, d', s') →
      P s') (h : Takes r bs r') (hr : P r.impl) : P r'.impl := by
  induction h with
  | nil => exact hr
  | cons hpeek hread _ ih =>
    exact ih (BufferedReader.read_preserves hP hread (BufferedReader.peek_preserves hP hpeek hr))

variable [LawfulReader σ]

/-- The bytes taken are the first of the contents. -/
theorem content_eq (h : Takes r bs r') : Reader.content r = bs ++ Reader.content r' := by
  induction h with
  | nil => rfl
  | cons hpeek hread _ ih =>
    rw [← (BufferedReader.peek_spec hpeek).1, ← (BufferedReader.read_spec hread).1.append_rest, ih]
    rfl

/-- No more bytes are taken than the evaluation of `readline` has turns for. -/
theorem length_le_fuel [PromptReader σ] (h : Takes r bs r') : bs.length ≤ Reader.fuel r := by
  refine le_trans ?_ (BufferedReader.length_content_le_fuel r)
  rw [h.content_eq, List.length_append]
  exact Nat.le_add_right _ _

end Takes

/-- A read of one byte from a buffer that is not empty. -/
theorem BufferedReader.read_one {r : BufferedReader σ} {b : Byte} {rest : Bytes}
    (hr : r.buf = b :: rest) :
    r.read [0] = some (⟨1, none⟩, [b], { r with buf := rest }) := by
  have hlen : ([0] : Bytes).length ≤ r.buf.length := by
    rw [hr]
    exact Nat.succ_le_succ (Nat.zero_le _)
  rw [read_of_le hlen, hr]
  rfl

section Ready

variable [LawfulReader σ] [PromptReader σ] {r r' : BufferedReader σ} {bs : Bytes}

/-- A ready reader has the next byte to take. -/
theorem exists_take (hr : r.Ready) {b : Byte} {rest : Bytes} (hc : Reader.content r = b :: rest) :
    ∃ r₁ r₂, r.peek = some ((b, true), r₁) ∧ r₁.read [0] = some (⟨1, none⟩, [b], r₂) ∧
      r₂.Ready ∧ Reader.content r₂ = rest := by
  obtain ⟨b', haveNext, r₁, hpeek, hr₁, hc₁, hnext⟩ := BufferedReader.peek_ready hr
  rcases hnext with ⟨rfl, buf, hbuf⟩ | ⟨-, hnil⟩
  · rw [hc, BufferedReader.content_eq, hbuf, List.cons_append, List.cons.injEq] at hc₁
    obtain ⟨rfl, hrest⟩ := hc₁
    have hfits := hr₁.fits
    rw [hbuf, List.length_cons] at hfits
    exact ⟨r₁, _, hpeek, BufferedReader.read_one hbuf,
      ⟨hr₁.prompt, hr₁.capacity_pos, Nat.le_of_succ_le hfits⟩, hrest⟩
  · rw [hc] at hnil
    exact absurd hnil (List.cons_ne_nil _ _)

/-- A ready reader has its contents to take. -/
theorem exists_takes (hr : r.Ready) {rest : Bytes} (hc : Reader.content r = bs ++ rest) :
    ∃ r', Takes r bs r' ∧ r'.Ready ∧ Reader.content r' = rest := by
  induction bs generalizing r with
  | nil => exact ⟨r, .nil r, hr, hc⟩
  | cons b bs ih =>
    obtain ⟨r₁, r₂, hpeek, hread, hr₂, hc₂⟩ := exists_take hr hc
    obtain ⟨r', htakes, hr', hc'⟩ := ih hr₂ hc₂
    exact ⟨r', .cons hpeek hread htakes, hr', hc'⟩

/-- At the end of the contents, there is nothing more to read. -/
theorem peek_end (hr : r.Ready) (hc : Reader.content r = []) :
    ∃ b r', r.peek = some ((b, false), r') ∧ r'.Ready ∧ Reader.content r' = [] := by
  obtain ⟨b, haveNext, r', hpeek, hr', hc', hnext⟩ := BufferedReader.peek_ready hr
  rcases hnext with ⟨rfl, buf, hbuf⟩ | ⟨rfl, -⟩
  · rw [hc, BufferedReader.content_eq, hbuf] at hc'
    exact absurd hc' (List.cons_ne_nil _ _)
  · exact ⟨b, r', hpeek, hr', hc'.trans hc⟩

end Ready

/-! ## Lines -/

/-- What has no end of line in it is a line. -/
theorem isLine_crlf {l : Bytes} (h : ¬crlf <:+: l) : IsLine crlf l := by
  intro hl
  rcases crlf_append_iff.1 hl with hl | hl | ⟨-, hl⟩
  · exact h hl
  · exact absurd hl (by decide)
  · exact absurd hl (by decide)

section Lines

variable {eol acc bs l s : Bytes} {r r₁ r' : BufferedReader σ}

theorem readlineTurn_take {r₂ : BufferedReader σ} {b : Byte} (hacc : ¬eol <:+ acc)
    (hpeek : r.peek = some ((b, true), r₁)) (hread : r₁.read [0] = some (⟨1, none⟩, [b], r₂)) :
    readlineTurn eol (acc, r) = some (.next (acc ++ [b], r₂)) := by
  simp only [readlineTurn, if_neg hacc, hpeek, hread, Option.bind_eq_bind, Option.bind_some]
  rfl

theorem readlineTurn_suffix (hacc : eol <:+ acc) :
    readlineTurn eol (acc, r) = some (.done (.ok acc, r)) := by
  simp only [readlineTurn, if_pos hacc]

theorem readlineTurn_end {b : Byte} (hacc : ¬eol <:+ acc)
    (hpeek : r.peek = some ((b, false), r')) :
    readlineTurn eol (acc, r) = some (.done (.ok acc, r')) := by
  simp only [readlineTurn, if_neg hacc, hpeek, Option.bind_eq_bind, Option.bind_some]
  rfl

/-- The loop takes bytes for as long as the line has not ended before. -/
theorem run_takes (acc : Bytes) (h : Takes r bs r')
    (hbs : ∀ p, p <+: bs → p ≠ bs → ¬eol <:+ acc ++ p) (n : ℕ) :
    Loop.run (readlineTurn eol) (n + bs.length) (acc, r) =
      Loop.run (readlineTurn eol) n (acc ++ bs, r') := by
  induction h generalizing acc with
  | nil => rw [List.append_nil, List.length_nil, Nat.add_zero]
  | @cons r r₁ r₂ r' b bs hpeek hread _ ih =>
    have hacc : ¬eol <:+ acc := by
      have h := hbs [] (List.nil_prefix) (List.cons_ne_nil b bs).symm
      rwa [List.append_nil] at h
    rw [List.length_cons, ← Nat.add_assoc, Loop.run_succ_next (readlineTurn_take hacc hpeek hread),
      ih, List.append_assoc, List.singleton_append]
    intro p hp hne
    rw [List.append_assoc]
    exact hbs (b :: p) (List.cons_prefix_cons.2 ⟨rfl, hp⟩) fun h => hne (List.cons.inj h).2

variable [LawfulReader σ] [PromptReader σ]

/-- `readline` stops behind the first end of line. -/
theorem readline_takes (hl : IsLine eol l) (h : Takes r (l ++ eol) r') :
    readline r eol = some (.ok l, r') := by
  -- The line does not end before its end.
  have hopen : ∀ p, p <+: l ++ eol → p ≠ l ++ eol → ¬eol <:+ p := by
    intro p hp hne
    obtain ⟨q, hq⟩ := id hp
    have hpq : p ++ q = l ++ eol ++ [] := by rw [hq, List.append_nil]
    exact hl.not_suffix_of_lt hpq (hp.length_le.lt_of_ne fun hlen => hne (hp.eq_of_length hlen))
  have hrun := run_takes [] h hopen (Reader.fuel r - (l ++ eol).length + 1)
  rw [Nat.add_right_comm, Nat.sub_add_cancel h.length_le_fuel, List.nil_append,
    Loop.run_succ_done (readlineTurn_suffix (List.suffix_append l eol))] at hrun
  simp only [readline, hrun, Option.bind_eq_bind, Option.bind_some, Except.map,
    if_pos (List.suffix_append l eol)]
  simp

/-- `readline` stops where there is nothing more to read. -/
theorem readline_end {b : Byte} (hs : ¬eol <:+: s) (h : Takes r s r₁)
    (hend : r₁.peek = some ((b, false), r')) : readline r eol = some (.ok s, r') := by
  have hsuffix : ¬eol <:+ s := fun h => hs h.isInfix
  have hopen : ∀ p, p <+: s → p ≠ s → ¬eol <:+ p := fun p hp _ hsuf =>
    hs (hsuf.isInfix.trans hp.isInfix)
  have hrun := run_takes [] h hopen (Reader.fuel r - s.length + 1)
  rw [Nat.add_right_comm, Nat.sub_add_cancel h.length_le_fuel, List.nil_append,
    Loop.run_succ_done (readlineTurn_end hsuffix hend)] at hrun
  simp only [readline, hrun, Option.bind_eq_bind, Option.bind_some, Except.map, if_neg hsuffix]

/-- `readline` on a ready reader: the first line of its contents. -/
theorem readline_ready (hr : r.Ready) (hne : eol ≠ []) :
    ∃ r', readline r eol = some (.ok (cutLine eol (Reader.content r)).1, r') ∧ r'.Ready ∧
      Reader.content r' = (cutLine eol (Reader.content r)).2 ∧
      (eol <:+: Reader.content r → Takes r ((cutLine eol (Reader.content r)).1 ++ eol) r') := by
  by_cases heol : eol <:+: Reader.content r
  · obtain ⟨l, rest, hc, hl⟩ := exists_isLine hne heol
    obtain ⟨r', htakes, hr', hc'⟩ := exists_takes hr hc
    rw [hc, cutLine_append hl]
    exact ⟨r', readline_takes hl htakes, hr', hc', fun _ => htakes⟩
  · -- No end of line: all of the contents are taken, and the next `peek` finds no more.
    obtain ⟨r₁, htakes, hr₁, hc₁⟩ := exists_takes hr (List.append_nil (Reader.content r)).symm
    obtain ⟨b, r', hend, hr', hc'⟩ := peek_end hr₁ hc₁
    rw [cutLine_of_no_end heol]
    exact ⟨r', readline_end heol htakes hend, hr', hc', fun h => absurd h heol⟩

end Lines

end Cppnet.Io
